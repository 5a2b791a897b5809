import AtomicDisk.Cluster.Clients
import AtomicDisk.Register.Refinement

/-! What the processes guarantee to their clients, sector by sector. Everything is proved of the registers of
    one sector, and holds of the processes because they refine them:

        clients ◀──stretched── workers ──simulated──▶ registers ──followed──▶ algorithm
        directories ───────────────────simulated──▶ stored sectors

    What is said about a directory is said about the newest file of the sector, which is the one that recovery
    keeps. As for the registers, `Latest` is the condition under which the order by ranks, which the handler of
    VALUE takes the maximum by, finds the latest entry. -/

namespace AtomicDisk.Register
open Schemes

variable {p : Params} {P : System → Event → Prop} {tr : Trace} {w : System} {z : Step} {i wr : UInt8} {o : Uuid}
  {t : UInt64} {d : SectorVec}

/-- The latest entry is at least as new as the register's own. -/
theorem Meets.grows {r : AtomicRegisterState Uuid} {cmd : SystemRegisterCommand} (h : Meets (Latest p) r cmd) :
    Meets (fun r m e => Latest p r m e ∧ TagGrows p r m e) r cmd :=
  h.imp fun _ _ hown hlatest => ⟨hlatest, hlatest.tagGrows hown⟩

/-- What is held anywhere is the zero sector, or the data of the write with its tag. -/
theorem held_operation (hr : SystemRun p P tr w) (h : Held w t wr d) : (t = 0 ∧ wr = 0 ∧ d = .zeros) ∨
    ∃ o, (o, .write d) ∈ operations tr ∧ opTag tr o = tag t wr ∧ wr ≠ 0 := by
  rcases held_sourced hr h with hzero | ⟨y, hy, id, hiss⟩
  · exact Or.inl hzero
  · obtain ⟨hd, hst⟩ := hiss.started_of_mem hr hy
    have hop : (id, .write d) ∈ operations tr := mem_operations.mpr
      ⟨mem_invocations.mpr ⟨wr, _, hst, rfl⟩, Or.inr ⟨⟨d, rfl⟩, y, hy, wr, t, wr, d, hiss.1⟩⟩
    exact Or.inr ⟨id, hop, opTag_eq hr hy hiss.1, hiss.rank_pos hr hy⟩

/-- Copies with one tag are equal. -/
theorem held_same (hr : SystemRun p (NewTagLarger p) tr w) {d' : SectorVec} (h : Held w t wr d)
    (h' : Held w t wr d') : d = d' := by
  rcases held_operation hr h with ⟨rfl, rfl, rfl⟩ | ⟨o, ho, htag, hwr⟩
  · rcases held_operation hr h' with ⟨-, -, rfl⟩ | ⟨o', -, -, hwr'⟩
    · rfl
    · exact absurd rfl hwr'
  · rcases held_operation hr h' with ⟨rfl, rfl, rfl⟩ | ⟨o', ho', htag', -⟩
    · exact absurd rfl hwr
    · exact (opTag_distinct hr ho ho' (htag.trans htag'.symm)).2

/-- What a read returns is the zero sector, or the data of a write. -/
theorem respond_data (hr : SystemRun p P tr w) (h : .respond o (some d) ∈ history tr) :
    d = .zeros ∨ ∃ o', (o', .write d) ∈ operations tr := by
  obtain ⟨x, hx, op, hcb, hret⟩ := mem_history_respond.mp h
  obtain ⟨l₁, l₂, htr⟩ := List.append_of_mem hx
  obtain ⟨hrun, -, hs⟩ := hr.split htr
  obtain ⟨i, r, cmd, t, wr, d', -, -, hst, -, -, ⟨hread, -⟩ | ⟨-, hop⟩⟩ := callback_backed hrun hs hcb
  · have hst' : Started tr i o cmd := by rw [htr]; exact hst.append _
    have ho : (o, .read) ∈ operations tr :=
      mem_operations.mpr ⟨mem_invocations.mpr ⟨i, cmd, hst', by rw [hread]; rfl⟩, Or.inl ⟨_, h⟩⟩
    rcases opTag_reads hr ho h with ⟨heq, -⟩ | ⟨o', v, ho', -, heq⟩
    · exact Or.inl (Option.some.inj heq)
    · obtain rfl := Option.some.inj heq
      exact Or.inr ⟨o', ho'⟩
  · rw [hop] at hret
    cases hret

/-- What an operation has picked is, from its response on, at a majority of the processes, or something newer is. -/
theorem respond_covers (hr : SystemRun p (NewTagLarger p) tr w) {ret : Option SectorVec}
    (h : .respond o ret ∈ history tr) (hz : z ∈ tr) (hp : Picks i o t wr d z) :
    MajorityOf p fun q => tag t wr ≤ sectorTag (w.process q).sector := by
  obtain ⟨x, hx, op, hcb, rfl⟩ := mem_history_respond.mp h
  obtain ⟨l₁, l₂, htr⟩ := List.append_of_mem hx
  obtain ⟨hrun, -, hs⟩ := hr.split htr
  obtain ⟨j, r, cmd, t', wr', d', -, -, -, hin, hmaj, -⟩ := callback_backed hrun hs hcb
  obtain ⟨z', hz', hp'⟩ := (phases hrun).writeProc _ _ _ _ _ hin
  obtain ⟨-, -, rfl, rfl, -⟩ := hp.unique hr hz (by rw [htr]; exact List.mem_append_left _ hz') hp'
  refine hmaj.mono fun q ⟨u, hu, _, _, _, _, _, _, _, _, _, _, hle, _⟩ => ?_
  have hu' : u ∈ tr := by rw [htr]; exact List.mem_append_left _ (after_subset u hu)
  exact hle.trans (sectorTag_pre_le hr hu' q).2

end AtomicDisk.Register

namespace AtomicDisk.Cluster
open Schemes Register Transfer
open Node (Kept MetBy contents)
open Storage (Sector fileAt Newest)

variable {p : Config} {C : EntryCondition} {idx : SectorIdx} {sys : System} {i j : UInt8} {w : World}
  {tr : Trace} {a : ClientOp} {s : Sector}

/-- A run that meets the condition on the latest entry meets that on new tags. -/
theorem ClusterRun.grows (hr : ClusterRun p (Latest (p.params idx)) tr w) :
    ClusterRun p (fun r m e => Latest (p.params idx) r m e ∧ TagGrows (p.params idx) r m e) tr w := by
  refine hr.weaken fun w e ⟨hforged, hmet⟩ => ⟨hforged, ?_⟩
  cases e with
  | node i e => exact fun y hy => (hmet y hy).grows
  | _ => trivial

theorem ClusterRun.growing (hr : ClusterRun p (Latest (p.params idx)) tr w) :
    ClusterRun p (TagGrows (p.params idx)) tr w :=
  hr.grows.weaken fun _ e ⟨hforged, hmet⟩ => ⟨hforged, by
    cases e with
    | node i e => exact MetBy.imp hmet fun _ _ _ h => h.2
    | _ => trivial⟩

/-- The newest file of sector `idx` in the directory of process `i` has `s` in it; without a file it is the zero
    sector. -/
def OnDisk (w : World) (i : UInt8) (idx : SectorIdx) (s : Sector) : Prop :=
  ∃ d, Newest (fileAt (w.nodes i).dir idx) d ∧ contents d = s

theorem OnDisk.unique {s' : Sector} (h : OnDisk w i idx s) (h' : OnDisk w i idx s') : s = s' := by
  obtain ⟨d, hd, rfl⟩ := h
  obtain ⟨d', hd', rfl⟩ := h'
  rw [hd.unique hd']

/-- What a process has stored is what its register has stored. -/
theorem Simulates.onDisk_iff (h : Simulates p C idx sys w) (hi : i ∈ targets p.processesCount) :
    OnDisk w i idx s ↔ (sys.process i).sector = s := by
  constructor
  · rintro ⟨d, hd, rfl⟩
    exact (h.procs i hi).sector d hd
  · rintro rfl
    obtain ⟨d, hd, -⟩ := (h.kept i).durable idx
    exact ⟨d, hd, ((h.procs i hi).sector d hd).symm⟩

/-- What is stored is held by the registers. -/
theorem Simulates.held (h : Simulates p C idx sys w) (hi : i ∈ targets p.processesCount) (hs : OnDisk w i idx s) :
    Held sys s.2.1 s.2.2 s.1 :=
  .storage ((h.onDisk_iff hi).mp hs)

/-! ### Two runs -/

/-- The only file of the sector is its newest. -/
theorem onDisk_of_sole {ts : UInt64} {wr : UInt8} {d : SectorVec}
    (hkeys : (w.nodes i).dir.keys = [Storage.sectoridxFilePath idx ts wr])
    (hfile : fileAt (w.nodes i).dir idx (ts, wr) = some d.data) : OnDisk w i idx (d, ts, wr) := by
  refine ⟨some (d, ts, wr), ⟨fun u hu => ?_, fun t c ht => ⟨_, rfl, ?_⟩⟩, rfl⟩
  · obtain rfl := Option.mem_some_iff.mp hu
    exact hfile
  · have hmem : Storage.sectoridxFilePath idx t.1 t.2 ∈ (w.nodes i).dir.keys :=
      AList.lookup_isSome.mp (by rw [fileAt] at ht; rw [ht]; rfl)
    rw [hkeys, List.mem_singleton, Storage.filePath_inj] at hmem
    obtain ⟨-, ht, hw⟩ := hmem
    rw [ht, hw]
    exact le_refl _

/-- The worker begins with the command from connection `c`. -/
def startsOp (c : ℕ) (u : UInt8) : List Node.Event :=
  [.task (.run (.acquire c)), .task (.run (.send c)), .task (.run (.work 0 (uuid u) .asIs))]

def handles : List Node.Event := [.task (.run (.work 0 (uuid 0) .asIs))]

/-- The worker handles the next message from its own process. -/
def handlesSelf : List Node.Event := .selfMessage :: handles

/-- The worker sends to one process: every message goes to two channels. -/
def sends : List Node.Event := [.perform 0, .push 0, .push 0, .perform 0]

def broadcasts : List Node.Event :=
  [.perform 0, .push 0, .push 0, .push 0, .push 0, .push 0, .push 0, .perform 0]

def storesSector : List Node.Event :=
  [.perform 0, .write 0, .write 0, .write 0, .write 0, .write 0, .perform 0]

/-- The worker acknowledges its own WRITE_PROC, after what is left of its own VALUEs, and responds. -/
def responds : List Node.Event :=
  [handlesSelf, handlesSelf, handlesSelf, handlesSelf, sends, handlesSelf, sends, handlesSelf,
    [.task (.run (.respond 0)), .perform 0, .task (.run (.release 0))]].flatten

/-- A client connects to process `t`, by wire `n`, and its command is read from connection `c`. -/
def requests (t : UInt8) (n c : ℕ) (content : ClientRegisterCommandContent) : List Event :=
  [.dial t, .bytes n (serializeRc sumHmac (.client ⟨⟨0, 0⟩, content⟩) []), .accept t n, .read t c 4200]

/-- A message from process `i` to process `t`, which reads it from its connection `c`. -/
def passes (i t : UInt8) (c : ℕ) : List Event := [.write i t true 0, .read t c 4200]

/-- Three processes, with one sector. -/
def three : Config := ⟨sumHmac, [], [], 1, 3, true⟩

/-- All processes are started and connect to each other. -/
def starts : List Event :=
  [.node 1 (.restart []), .node 2 (.restart []), .node 3 (.restart []), .connect 1 2, .connect 1 3, .connect 2 1,
    .connect 2 3, .connect 3 1, .connect 3 2, .node 1 .recover, .node 2 .recover, .node 3 .recover, .accept 1 2,
    .accept 2 0, .accept 2 5, .accept 3 3]

/-- A client writes at process 1, and process 2 stores what it has written. -/
def replicated : List Event :=
  [starts, requests 1 6 1 (.write (filled 7)), (startsOp 1 1 ++ broadcasts).map (.node 1), passes 1 2 0,
    (handles ++ sends).map (.node 2), passes 2 1 0,
    ([handles, handlesSelf, sends, handlesSelf, sends, handlesSelf, storesSector, broadcasts].flatten).map (.node 1),
    passes 1 2 0, ([handles, storesSector, sends].flatten).map (.node 2), passes 2 1 0,
    (handles ++ responds).map (.node 1)].flatten

/-- Then process 1 crashes and is started again, and a client reads at process 2, which asks process 3. -/
def writeCrashRead : List Event :=
  [replicated,
    [.node 1 .crash, .node 1 (.restart [Storage.sectoridxFilePath 0 1 1]), .connect 1 2, .connect 1 3,
      .node 1 .recover, .node 1 .recover],
    requests 2 9 2 .read, (startsOp 2 2 ++ broadcasts).map (.node 2), passes 2 3 0,
    (handles ++ sends).map (.node 3), passes 3 2 1,
    ([handles, handlesSelf, sends, handlesSelf, sends, handlesSelf, broadcasts].flatten).map (.node 2),
    passes 2 3 0, ([handles, storesSector, sends].flatten).map (.node 3), passes 3 2 1,
    (handles ++ responds).map (.node 2)].flatten

section run
-- sectors of 4096 bytes are compared byte by byte when a concrete run is replayed
set_option maxRecDepth 40000

theorem replicated_run : ∃ tr w, ClusterRun three (Latest (three.params 0)) tr w ∧
    clientHistory 0 tr = [.invoke ⟨1, 1, 0⟩ (.write (filled 7)), .respond ⟨1, 1, 0⟩ none] ∧
    workerHistory 0 tr = [.invoke (uuid 1) (.write (filled 7)), .respond (uuid 1) none] ∧
    OnDisk w 1 0 (filled 7, 1, 1) ∧ OnDisk w 2 0 (filled 7, 1, 1) := by
  obtain ⟨tr, w, hr, hobs⟩ := Run.exists_of_exec (step three) (Admitted three (Latest (three.params 0))) init
    replicated (fun tr w => decide
      ((clientHistory 0 tr = [.invoke ⟨1, 1, 0⟩ (.write (filled 7)), .respond ⟨1, 1, 0⟩ none] ∧
        workerHistory 0 tr = [.invoke (uuid 1) (.write (filled 7)), .respond (uuid 1) none]) ∧
      ∀ i ∈ ([1, 2] : List UInt8), (w.nodes i).dir.keys = [Storage.sectoridxFilePath 0 1 1] ∧
        fileAt (w.nodes i).dir 0 (1, 1) = some (filled 7).data)) (by decide +kernel)
  obtain ⟨⟨hclient, hworker⟩, hdirs⟩ := of_decide_eq_true hobs
  obtain ⟨hkeys₁, hfile₁⟩ := hdirs 1 (by decide)
  obtain ⟨hkeys₂, hfile₂⟩ := hdirs 2 (by decide)
  exact ⟨tr, w, hr, hclient, hworker, onDisk_of_sole hkeys₁ hfile₁, onDisk_of_sole hkeys₂ hfile₂⟩

theorem writeCrashRead_run : ∃ tr w, ClusterRun three (Latest (three.params 0)) tr w ∧
    clientHistory 0 tr = [.invoke ⟨1, 1, 0⟩ (.write (filled 7)), .respond ⟨1, 1, 0⟩ none,
      .invoke ⟨2, 1, 0⟩ .read, .respond ⟨2, 1, 0⟩ (some (filled 7))] := by
  obtain ⟨tr, w, hr, hobs⟩ := Run.exists_of_exec (step three) (Admitted three (Latest (three.params 0))) init
    writeCrashRead (fun tr _ => decide (clientHistory 0 tr =
      [.invoke ⟨1, 1, 0⟩ (.write (filled 7)), .respond ⟨1, 1, 0⟩ none,
      .invoke ⟨2, 1, 0⟩ .read, .respond ⟨2, 1, 0⟩ (some (filled 7))])) (by decide +kernel)
  exact ⟨tr, w, hr, of_decide_eq_true hobs⟩

end run

/-! ### Data -/

/-- CORRECT (refinement): for each sector, every run of all processes, in which the condition on new tags holds,
    is a run of the registers of that sector. The same operations are started and completed in the same order;
    what a process has stored is what its register has stored; and the register of a worker that is not about to
    store is the register. -/
theorem refines_registers (hr : ClusterRun p (TagGrows (p.params idx)) tr w) :
    ∃ tr' sys, SystemRun (p.params idx) (NewTagLarger (p.params idx)) tr' sys ∧
      history tr' = workerHistory idx tr ∧ ∀ i ∈ targets p.processesCount,
        OnDisk w i idx (sys.process i).sector ∧ ∀ x, (w.nodes i).slot idx.toNat = some x → x.lags = false →
          (sys.process i).register = some x.worker.register.named := by
  obtain ⟨tr', sys, hrun, hsim, -, hhist⟩ := simulated (fun _ _ _ h => h) hr
  refine ⟨tr', sys, hrun, hhist, fun i hi => ⟨(hsim.onDisk_iff hi).mpr rfl, fun x hx hlags => ?_⟩⟩
  have hslot := (hsim.procs i hi).slot
  rw [hx] at hslot
  exact hslot.agrees hlags

theorem replicated_refines : ∃ tr w tr' sys, ClusterRun three (TagGrows (three.params 0)) tr w ∧
    SystemRun (three.params 0) (NewTagLarger (three.params 0)) tr' sys ∧
    history tr' = [.invoke (uuid 1) (.write (filled 7)), .respond (uuid 1) none] ∧
    (sys.process 2).sector = (filled 7, 1, 1) := by
  obtain ⟨tr, w, hr, -, hworker, -, hstored⟩ := replicated_run
  obtain ⟨tr', sys, hrun, hhist, hprocs⟩ := refines_registers hr.growing
  refine ⟨tr, w, tr', sys, hr.growing, hrun, hhist.trans hworker, ?_⟩
  exact (hprocs 2 (by decide)).1.unique hstored

/-- CORRECT (no invented data): what a client reads, and what is stored in any directory, is the zero sector or
    the data of a write that a client has sent. -/
theorem data_from_clients (hr : ClusterRun p (TagGrows (p.params idx)) tr w) :
    (∀ a d, .respond a (some d) ∈ clientHistory idx tr → d = .zeros ∨
      ∃ b, .invoke b (.write d) ∈ clientHistory idx tr) ∧
    ∀ i ∈ targets p.processesCount, ∀ s, OnDisk w i idx s → s = (.zeros, 0, 0) ∨
      ∃ b, .invoke b (.write s.1) ∈ clientHistory idx tr := by
  obtain ⟨tr', sys, hrun, hsim, -, hhist⟩ := simulated (fun _ _ _ h => h) hr
  have hst := stretched (fun _ _ _ h => h) hr
  -- the write of an operation has come from a client
  have hclient : ∀ o d, (o, .write d) ∈ operations tr' → ∃ b, .invoke b (.write d) ∈ clientHistory idx tr := by
    intro o d ho
    refine ⟨_, hst.invoked o _ ?_⟩
    rw [← hhist]
    exact mem_history_invoke.mpr (mem_operations.mp ho).1
  refine ⟨fun a d ha => ?_, fun i hi s hs => ?_⟩
  · obtain ⟨o, -, hresp⟩ := hst.responded a _ ha
    rw [← hhist] at hresp
    exact (respond_data hrun hresp).imp_right fun ⟨o', ho'⟩ => hclient o' d ho'
  · rcases held_operation hrun (hsim.held hi hs) with ⟨ht, hwr, hd⟩ | ⟨o, ho, -⟩
    · obtain ⟨d, t, wr⟩ := s
      obtain ⟨rfl, rfl, rfl⟩ : t = 0 ∧ wr = 0 ∧ d = .zeros := ⟨ht, hwr, hd⟩
      exact Or.inl rfl
    · exact Or.inr (hclient o s.1 ho)

theorem writeCrashRead_data : ∃ tr w, ClusterRun three (TagGrows (three.params 0)) tr w ∧
    (filled 7 = .zeros ∨ ∃ b, .invoke b (.write (filled 7)) ∈ clientHistory 0 tr) := by
  obtain ⟨tr, w, hr, hseen⟩ := writeCrashRead_run
  exact ⟨tr, w, hr.growing, (data_from_clients hr.growing).1 ⟨2, 1, 0⟩ (filled 7) (by simp [hseen])⟩

/-- CORRECT (agreement): directories that have the same tag for a sector have the same data for it. -/
theorem directories_agree (hr : ClusterRun p (TagGrows (p.params idx)) tr w) (hi : i ∈ targets p.processesCount)
    (hj : j ∈ targets p.processesCount) {t : UInt64} {wr : UInt8} {d d' : SectorVec} (hs : OnDisk w i idx (d, t, wr))
    (hs' : OnDisk w j idx (d', t, wr)) : d = d' := by
  obtain ⟨tr', sys, hrun, hsim, -, -⟩ := simulated (fun _ _ _ h => h) hr
  exact held_same hrun (hsim.held hi hs) (hsim.held hj hs')

theorem replicated_agree : ∃ tr w, ClusterRun three (TagGrows (three.params 0)) tr w ∧
    OnDisk w 1 0 (filled 7, 1, 1) ∧ ∀ d, OnDisk w 2 0 (d, 1, 1) → filled 7 = d := by
  obtain ⟨tr, w, hr, -, -, hstored, -⟩ := replicated_run
  exact ⟨tr, w, hr.growing, hstored, fun d hd => directories_agree hr.growing (by decide) (by decide) hstored hd⟩

/-! ### In real time -/

theorem latest_simulated (hr : ClusterRun p (Latest (p.params idx)) tr w) :
    ∃ tr' sys, SystemRun (p.params idx) (HighestIsLatest (p.params idx)) tr' sys ∧
      Simulates p (fun r m e => Latest (p.params idx) r m e ∧ TagGrows (p.params idx) r m e) idx sys w ∧
      history tr' = workerHistory idx tr := by
  obtain ⟨tr', sys, hrun, hsim, -, hhist⟩ := simulated (fun _ _ _ h => h.2) hr.grows
  exact ⟨tr', sys, hrun.weaken fun _ _ h => h.imp fun _ _ _ _ hc => hc.1, hsim, hhist⟩

/-- CORRECT (refinement): for each sector, every run of all processes is a sequence of steps of the algorithm. The
    same operations are called and return in the same order; what a process has stored is what its instance has
    stored; and the register of a worker that is not about to store is the instance. -/
theorem follows_algorithm (hr : ClusterRun p (Latest (p.params idx)) tr w) :
    ∃ ls st, Transitions (Nnar.Step (processes (p.params idx)) UInt8.toNat SectorVec.zeros)
        (Nnar.init (processes (p.params idx)) 0 SectorVec.zeros) ls st ∧
      ls.flatten = workerHistory idx tr ∧ ∀ i ∈ targets p.processesCount,
        (∀ s, OnDisk w i idx s → st.stable i = stableOf s) ∧
        ∀ x, (w.nodes i).slot idx.toNat = some x → x.lags = false →
          st.instances i = some (instanceOf x.worker.register.named) := by
  obtain ⟨tr', sys, hrun, hsim, hhist⟩ := latest_simulated hr
  refine ⟨_, stateOf sys, run_follows hrun, ?_, fun i hi => ⟨fun s hs => ?_, fun x hx hlags => ?_⟩⟩
  · rw [← history_eq_flatten, hhist]
  · exact congrArg stableOf ((hsim.onDisk_iff hi).mp hs)
  · have hslot := (hsim.procs i hi).slot
    rw [hx] at hslot
    exact congrArg (Option.map instanceOf) (hslot.agrees hlags)

theorem replicated_follows : ∃ tr w ls st, ClusterRun three (Latest (three.params 0)) tr w ∧
    Transitions (Nnar.Step (processes (three.params 0)) UInt8.toNat SectorVec.zeros)
      (Nnar.init (processes (three.params 0)) 0 SectorVec.zeros) ls st ∧
    ls.flatten = [.invoke (uuid 1) (.write (filled 7)), .respond (uuid 1) none] ∧ st.stable 2 = (1, 1, filled 7) := by
  obtain ⟨tr, w, hr, -, hworker, -, hstored⟩ := replicated_run
  obtain ⟨ls, st, hsteps, hhist, hprocs⟩ := follows_algorithm hr
  exact ⟨tr, w, ls, st, hr, hsteps, hhist.trans hworker, (hprocs 2 (by decide)).1 _ hstored⟩

/-- CORRECT (linearizability): what clients see of a sector, over all processes, connections and crashes, is
    linearizable. -/
theorem clients_linearizable (hr : ClusterRun p (Latest (p.params idx)) tr w) :
    Linearizable SectorVec.zeros (clientHistory idx tr) := by
  obtain ⟨tr', sys, hrun, -, hhist⟩ := latest_simulated hr
  have hlin := linearizable_of_tags (tagging hrun)
  rw [hhist] at hlin
  exact (stretched (fun _ _ _ h => h.2) hr.grows).linearizable hlin

theorem writeCrashRead_linearizable : ∃ tr w, ClusterRun three (Latest (three.params 0)) tr w ∧
    clientHistory 0 tr = [.invoke ⟨1, 1, 0⟩ (.write (filled 7)), .respond ⟨1, 1, 0⟩ none,
      .invoke ⟨2, 1, 0⟩ .read, .respond ⟨2, 1, 0⟩ (some (filled 7))] ∧
    Linearizable SectorVec.zeros (clientHistory 0 tr) := by
  obtain ⟨tr, w, hr, hseen⟩ := writeCrashRead_run
  exact ⟨tr, w, hr, hseen, clients_linearizable hr⟩

/-- CORRECT (durability): when a client has been told that its write is done, a majority of the directories has
    its data, or the data of another write that was not done before it had been sent. -/
theorem acknowledged_survives (hr : ClusterRun p (Latest (p.params idx)) tr w)
    (ha : .respond a none ∈ clientHistory idx tr) : ∃ v, .invoke a (.write v) ∈ clientHistory idx tr ∧
      MajorityOf (p.params idx) fun q => ∃ s, OnDisk w q idx s ∧
        ∃ b, .invoke b (.write s.1) ∈ clientHistory idx tr ∧ ¬ Precedes (clientHistory idx tr) b a := by
  obtain ⟨tr', sys, hrun, hsim, hhist⟩ := latest_simulated hr
  have hst := stretched (fun _ _ _ h => h.2) hr.grows
  have hrun' : SystemRun (p.params idx) (NewTagLarger (p.params idx)) tr' sys :=
    hrun.weaken fun _ _ h => HighestIsLatest.newTagLarger h
  have hinvoke : ∀ o d, (o, .write d) ∈ operations tr' → .invoke o (.write d) ∈ workerHistory idx tr := by
    intro o d ho
    rw [← hhist]
    exact mem_history_invoke.mpr (mem_operations.mp ho).1
  obtain ⟨u, rfl, hresp⟩ := hst.responded a none ha
  rw [← hhist] at hresp
  obtain ⟨z, hz, i, cmd, t, wr, d, hp, hstarted, hread⟩ := respond_picked hrun hresp
  obtain ⟨hd, content⟩ := cmd
  cases content with
  | read => cases hread rfl
  | write v =>
    have hu : (u, .write v) ∈ operations tr' :=
      mem_operations.mpr ⟨mem_invocations.mpr ⟨i, _, hstarted, rfl⟩, Or.inl ⟨none, hresp⟩⟩
    refine ⟨v, hst.invoked u _ (hinvoke u v hu), ?_⟩
    obtain ⟨S, hS, hcard, hcovers⟩ := respond_covers hrun' hresp hz hp
    refine ⟨S, hS, hcard, fun q hq => ?_⟩
    have hqt : q ∈ targets p.processesCount := mem_processes.mp (hS hq)
    refine ⟨_, (hsim.onDisk_iff hqt).mpr rfl, ?_⟩
    have hge := hcovers q hq
    rcases held_operation hrun (.storage rfl) with ⟨ht, hwr, -⟩ | ⟨o, ho, htag, -⟩
    · -- the tag of a write is larger than that of the zero sector
      obtain ⟨hiss, rfl⟩ := write_issues hrun hz hp hstarted rfl
      have hzero : tag t wr ≤ tag 0 0 := by rwa [← ht, ← hwr]
      exact absurd (tag_inj.mp (le_antisymm hzero (tag_zero_le _ _))).2 (hiss.rank_pos hrun hz)
    · refine ⟨_, hst.invoked o _ (hinvoke o _ ho), fun hprec => ?_⟩
      have hprec' := hst.precedes o u _ _ (hinvoke o _ ho) (hinvoke u v hu) hprec
      rw [← hhist] at hprec'
      rcases opTag_ordered hrun ho hu hprec' with hlt | ⟨-, hcall⟩
      · rw [htag, opTag_eq hrun hz hp] at hlt
        exact absurd hge (not_le.mpr hlt)
      · cases hcall

theorem replicated_survives : ∃ tr w v, ClusterRun three (Latest (three.params 0)) tr w ∧
    .invoke ⟨1, 1, 0⟩ (.write v) ∈ clientHistory 0 tr ∧ MajorityOf (three.params 0) fun q => ∃ s, OnDisk w q 0 s ∧
      ∃ b, .invoke b (.write s.1) ∈ clientHistory 0 tr ∧ ¬ Precedes (clientHistory 0 tr) b ⟨1, 1, 0⟩ := by
  obtain ⟨tr, w, hr, hclient, -, -, -⟩ := replicated_run
  obtain ⟨v, hv, hmaj⟩ := acknowledged_survives (a := ⟨1, 1, 0⟩) hr (by simp [hclient])
  exact ⟨tr, w, v, hr, hv, hmaj⟩

end AtomicDisk.Cluster
