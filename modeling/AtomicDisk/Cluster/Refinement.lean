import AtomicDisk.Cluster.Registers

/-! The processes refine the register systems. For every sector, a run of all processes, with their tasks,
    queues, streams, files and crashes, is a run of the registers of that sector over a network that delays,
    reorders, duplicates and loses messages (`refines_registers`), in which the same operations are started and
    completed in the same order. What is proved about the registers therefore holds of the processes.

        processes   ──▶ … bytes, tasks, files …            one run
             │ sector 0     │ sector 1     │ sector 2  …
             ▼              ▼              ▼
        registers      registers      registers            one run for each sector -/

namespace AtomicDisk.Cluster
open Schemes Register Transfer
open Node (Kept MetBy)

variable {p : Config} {C : EntryCondition} {idx : SectorIdx} {sys sys' : System} {i t : UInt8} {w w' : World}
  {e : Node.Event} {tr : Trace} {tr' : Register.Trace} {n k : ℕ} {Q : UInt8 → SystemRegisterCommand → Prop}
  {wires : List Wire} {writers : UInt8 → UInt8 → Writer}

/-- The operations on sector `idx` that a step starts or completes. -/
def servedIn (idx : SectorIdx) (x : Entry World Event Unit) : List (HEvent Uuid SectorVec) :=
  match x.event with
  | .node i e => served idx e ((x.pre.nodes i).slot idx.toNat) ((x.post.nodes i).slot idx.toNat)
  | _ => []

/-- The operations on sector `idx` that the workers start and complete, in order. -/
def workerHistory (idx : SectorIdx) (tr : Trace) : List (HEvent Uuid SectorVec) := tr.flatMap (servedIn idx)

/-- Every process is in relation to the register system, and so is what is between them. -/
structure Simulates (p : Config) (C : EntryCondition) (idx : SectorIdx) (sys : System) (w : World) : Prop where
  kept : ∀ i, Kept (p.node i) (w.nodes i)
  procs : ∀ i ∈ targets p.processesCount, ProcSim p C idx sys i (w.nodes i)
  bound : ∀ i, NodeBound (Sent idx sys) i (w.nodes i)
  wires : WiresBound p (Sent idx sys) w.wires w.writers
  conns : ∀ t, ∀ n ∈ w.conns t, ∃ r, w.wires[n]? = some r ∧ r.target = t

/-- Streams stay, with their targets. -/
def Stay (wires wires' : List Wire) : Prop :=
  ∀ (n : ℕ) (r : Wire), wires[n]? = some r → ∃ r', wires'[n]? = some r' ∧ r'.target = r.target

theorem Stay.conns {conns : UInt8 → List ℕ} {wires' : List Wire} (h : Stay wires wires')
    (hconns : ∀ t, ∀ n ∈ conns t, ∃ r, wires[n]? = some r ∧ r.target = t) :
    ∀ t, ∀ n ∈ conns t, ∃ r, wires'[n]? = some r ∧ r.target = t := by
  intro t n hn
  obtain ⟨r, hr, ht⟩ := hconns t n hn
  obtain ⟨r', hr', ht'⟩ := h n r hr
  exact ⟨r', hr', ht'.trans ht⟩

theorem stay_refl (wires : List Wire) : Stay wires wires := fun _ r hr => ⟨r, hr, rfl⟩

theorem stay_modify {f : Wire → Wire} (h : ∀ r, (f r).target = r.target) (n : ℕ) :
    Stay wires (wires.modify n f) := by
  intro n' r hr
  simp only [List.getElem?_modify, hr]
  split
  · exact ⟨_, rfl, h r⟩
  · exact ⟨_, rfl, rfl⟩

theorem stay_map {f : Wire → Wire} (h : ∀ r, (f r).target = r.target) : Stay wires (wires.map f) :=
  fun n r hr => ⟨f r, by simp [hr], h r⟩

theorem stay_append (l : List Wire) : Stay wires (wires ++ l) := by
  intro n r hr
  have hlt := (List.getElem?_eq_some_iff.mp hr).1
  exact ⟨r, by rw [List.getElem?_append_left hlt, hr], rfl⟩

/-! ### Processes -/

theorem MetBy.imp {C D : EntryCondition} {w : Node.World} (h : MetBy C w e) (hCD : ∀ r m e, C r m e → D r m e) :
    MetBy D w e :=
  fun y hy v hv hcomp e he hmax => hCD _ _ _ (h y hy v hv hcomp e he hmax)

theorem node_eq (h : w.node p i e = some w') : i ∈ targets p.processesCount ∧
    ∃ x o, Node.step (p.node i) p.hmacSystemKey (w.nodes i) e = some (x, o) ∧ w' = w.setNode i x := by
  unfold World.node at h
  split at h
  · rename_i hi
    obtain ⟨⟨x, o⟩, hs, rfl⟩ := Option.map_eq_some_iff.mp h
    exact ⟨hi, x, o, hs, rfl⟩
  · cases h

theorem setNode_nodes (w : World) (i : UInt8) (x : Node.World) :
    (w.setNode i x).nodes = Function.update w.nodes i x := by
  unfold World.setNode
  split <;> rfl

theorem node_drawn (h : w.node p i e = some w') : w'.drawn = w.drawn := by
  obtain ⟨-, x, o, -, rfl⟩ := node_eq h
  unfold World.setNode
  split <;> rfl

theorem cut_same (i : UInt8) (r : Wire) : (r.cut i).source = r.source ∧ (r.cut i).target = r.target ∧
    (r.cut i).unread = r.unread := by
  unfold Wire.cut
  split <;> exact ⟨rfl, rfl, rfl⟩

theorem WiresBound.cut (h : WiresBound p Q wires writers) (i : UInt8) :
    WiresBound p Q (wires.map (Wire.cut i)) (Function.update writers i fun _ => .unconnected) := by
  have hcut := cut_same i
  refine ⟨fun n r hr hs => ?_, fun i' t n hn => ?_⟩
  · rw [List.getElem?_map] at hr
    obtain ⟨r, hold, rfl⟩ := Option.map_eq_some_iff.mp hr
    rw [(hcut r).2.1, (hcut r).2.2]
    exact h.carries n r hold ((hcut r).1 ▸ hs)
  · rcases eq_or_ne i' i with rfl | hne
    · simp at hn
    · rw [Function.update_of_ne hne] at hn
      obtain ⟨r, ms, hr, hs, ht, hc⟩ := h.whole i' t n hn
      refine ⟨r.cut i, ms, by simp [hr], (hcut r).1.trans hs, (hcut r).2.1.trans ht, ?_⟩
      rw [(hcut r).2.2]
      exact hc

theorem setNode_wires (h : WiresBound p Q w.wires w.writers) (i : UInt8) (x : Node.World) :
    WiresBound p Q (w.setNode i x).wires (w.setNode i x).writers := by
  unfold World.setNode
  split
  · exact h.cut i
  · exact h

theorem node_stay (h : w.node p i e = some w') : Stay w.wires w'.wires := by
  obtain ⟨-, x, o, -, rfl⟩ := node_eq h
  unfold World.setNode
  split
  · exact stay_map fun r => (cut_same i r).2.1
  · exact stay_refl _

theorem setNode_conns (h : ∀ t, ∀ n ∈ w.conns t, ∃ r, w.wires[n]? = some r ∧ r.target = t) (i : UInt8)
    (x : Node.World) : ∀ t, ∀ n ∈ (w.setNode i x).conns t,
      ∃ r, (w.setNode i x).wires[n]? = some r ∧ r.target = t := by
  unfold World.setNode
  split
  · intro t n hn
    rcases eq_or_ne t i with rfl | hne
    · simp at hn
    · simp only [Function.update_of_ne hne] at hn
      exact (stay_map fun r => (cut_same i r).2.1).conns h t n hn
  · exact h

/-- What a worker of another sector sends is not for this one. -/
theorem effectFor_elsewhere {κ : Type} {eff : Effect κ} {j : SectorIdx} (hj : j ≠ idx)
    (h : ∀ m ∈ sentMessage eff, m.header.sectorIdx = j) : EffectFor p.processesCount (Sent idx sys) eff := by
  cases eff with
  | send msg => exact fun hidx => absurd ((h _ rfl).symm.trans hidx) hj
  | broadcast cmd => exact fun t _ hidx => absurd ((h _ rfl).symm.trans hidx) hj
  | write | callback => trivial

theorem Simulates.sends (h : Simulates p C idx sys w) (hi : i ∈ targets p.processesCount) (j : SectorIdx)
    (x : Node.Slot) (hx : (w.nodes i).slot j.toNat = some x) (hlags : x.lags = false) :
    ∀ eff ∈ x.todo, EffectFor p.processesCount (Sent idx sys) eff := by
  intro eff heff
  rcases eq_or_ne j idx with rfl | hne
  · have hslot := (h.procs i hi).slot
    rw [hx] at hslot
    exact hslot.sent hlags eff heff
  · exact effectFor_elsewhere hne ((h.bound i).place j x hx eff heff)

/-- A step of one process. -/
theorem Simulates.node (h : Simulates p C idx sys w) (hr : SystemRun (p.params idx) (AtQuorum C) tr' sys)
    (hC : ∀ r m e, C r m e → TagGrows (p.params idx) r m e) (hn : w.node p i e = some w')
    (hmet : MetBy C (w.nodes i) e) (hfresh : ∀ u ∈ draws (w.nodes i) e, u ∉ sys.opIds)
    (hread : ∀ c stream m rest, e = .read c stream →
      deserializeRc p.hmac p.keys stream = .ok ((.system m, true), rest) → Sent idx sys i m) :
    ∃ l sys', Answered p C idx sys i (draws (w.nodes i) e)
        (served idx e ((w.nodes i).slot idx.toNat) ((w'.nodes i).slot idx.toNat)) l sys' ∧
      Simulates p C idx sys' w' := by
  obtain ⟨hi, x, o, hs, rfl⟩ := node_eq hn
  obtain ⟨l, sys', hans, hproc⟩ :=
    procSim_step hr hi hC hmet (h.kept i) (h.bound i) hfresh (h.procs i hi) hs
  have hnet := sent_mono idx hans.network
  have hnodes := setNode_nodes w i x
  refine ⟨l, sys', by rw [hnodes, Function.update_self]; exact hans, fun j => ?_, fun j hj => ?_, fun j => ?_,
    setNode_wires (h.wires.imp hnet) i x, setNode_conns h.conns i x⟩
  · rw [hnodes]
    rcases eq_or_ne j i with rfl | hne
    · rw [Function.update_self]
      exact Node.kept_step (h.kept j) (MetBy.imp hmet hC) rfl hs
    · rw [Function.update_of_ne hne]
      exact h.kept j
  · rw [hnodes]
    rcases eq_or_ne j i with rfl | hne
    · rw [Function.update_self]
      exact hproc
    · rw [Function.update_of_ne hne]
      exact (h.procs j hj).frame (hans.other j hne) hans.network
  · rw [hnodes]
    rcases eq_or_ne j i with rfl | hne
    · rw [Function.update_self]
      exact (nodeBound_step hs (h.kept j) (h.bound j) hread (h.sends hi)).imp hnet
    · rw [Function.update_of_ne hne]
      exact (h.bound j).imp hnet

/-! ### Streams -/

theorem Carries.consume {r : Wire} {ms : List SystemRegisterCommand} {tail : List UInt8}
    (h : Carries p Q t r.unread ms tail) (k : ℕ) : ∃ ms', Carries p Q t (r.consume p k).unread ms' tail := by
  unfold Wire.consume
  split
  · rename_i x rest hread
    obtain ⟨m, ms', -, -, hc⟩ := h.read hread
    exact ⟨ms', hc⟩
  · exact ⟨ms, h⟩

theorem consume_ends (p : Config) (k : ℕ) (r : Wire) :
    (r.consume p k).source = r.source ∧ (r.consume p k).target = r.target := by
  unfold Wire.consume
  split <;> exact ⟨rfl, rfl⟩

theorem append_ends (bs : List UInt8) (r : Wire) :
    (r.append bs).source = r.source ∧ (r.append bs).target = r.target := by
  unfold Wire.append
  split <;> exact ⟨rfl, rfl⟩

/-- A command is read from a stream. -/
theorem WiresBound.consume (h : WiresBound p Q wires writers) (n k : ℕ) :
    WiresBound p Q (wires.modify n (Wire.consume p k)) writers := by
  refine h.modify (consume_ends p k) (fun _ _ _ hn => hn) (fun r hr hs => ?_) fun i t r hn hr => ?_
  · obtain ⟨ms, tail, hc⟩ := h.carries n r hr hs
    obtain ⟨ms', hc'⟩ := hc.consume k
    exact ⟨ms', tail, hc'⟩
  · obtain ⟨r', ms, hr', -, -, hc⟩ := h.whole i t n hn
    obtain rfl := Option.some.inj (hr.symm.trans hr')
    exact hc.consume k

/-- A client writes whatever it likes, to its own streams. -/
theorem WiresBound.bytes {target : UInt8} {unread : List UInt8} {live : Bool}
    (h : WiresBound p Q wires writers) (hn : wires[n]? = some ⟨none, target, unread, live⟩) (bs : List UInt8) :
    WiresBound p Q (wires.modify n (Wire.append bs)) writers := by
  refine h.modify (append_ends bs) (fun _ _ _ hn => hn) (fun r hr hs => ?_) fun i t r hw hr => ?_
  · obtain rfl := Option.some.inj (hn.symm.trans hr)
    exact absurd rfl hs
  · obtain ⟨r', ms, hr', hs, -, -⟩ := h.whole i t n hw
    obtain rfl := Option.some.inj (hn.symm.trans hr')
    cases hs

/-- A message is appended to a stream that holds whole ones, or a part of it. -/
theorem Carries.append {r : Wire} {ms : List SystemRegisterCommand} {m : SystemRegisterCommand}
    (h : Carries p Q t r.unread ms []) (hsized : Sized (.system m)) (hm : Q t m) :
    (∃ ms', Carries p Q t (r.append (frame p m)).unread ms' []) ∧
      (k < (frame p m).length → ∃ ms' tail, Carries p Q t (r.append ((frame p m).take k)).unread ms' tail) := by
  obtain ⟨hwhole, hpart⟩ := h.write (k := k) hsized hm
  unfold Wire.append
  split
  · exact ⟨⟨_, hwhole⟩, fun hk => ⟨_, _, hpart hk⟩⟩
  · exact ⟨⟨ms, h⟩, fun _ => ⟨ms, [], h⟩⟩

/-- The message that is written next is one for the target. -/
theorem Simulates.outgoing (h : Simulates p C idx sys w) {m : SystemRegisterCommand}
    (hm : w.outgoing i t = some m) : Sized (.system m) ∧ Sent idx sys t m := by
  unfold World.outgoing at hm
  split at hm
  · rename_i l hl
    have hmem := List.mem_of_mem_head? hm
    exact ⟨((((h.kept i).full.live l hl).messages).links t).connection m hmem,
      (((h.bound i).client l hl).links t).connection m hmem⟩
  · cases hm

/-- The writers when that of process `i` for process `t` has changed. -/
theorem update_writer (writers : UInt8 → UInt8 → Writer) (i t i' t' : UInt8) (x : Writer) :
    Function.update writers i (Function.update (writers i) t x) i' t' =
      if i' = i ∧ t' = t then x else writers i' t' := by
  rcases eq_or_ne i' i with rfl | hi
  · rcases eq_or_ne t' t with rfl | ht
    · simp
    · simp [ht]
  · simp [hi]

/-- Writing to a stream changes nothing else. -/
theorem written_same {ok : Bool} (hw : w.written p i t ok k = some w') :
    w'.nodes = w.nodes ∧ w'.conns = w.conns ∧ w'.drawn = w.drawn ∧ w'.started = w.started := by
  unfold World.written at hw
  split at hw
  · split at hw
    · obtain rfl := Option.some.inj hw
      exact ⟨rfl, rfl, rfl, rfl⟩
    · split at hw
      · obtain rfl := Option.some.inj hw
        exact ⟨rfl, rfl, rfl, rfl⟩
      · cases hw
  · split at hw
    · cases hw
    · obtain rfl := Option.some.inj hw
      exact ⟨rfl, rfl, rfl, rfl⟩
  · cases hw

/-- `handle_writing` writes to a stream. -/
theorem Simulates.written {ok : Bool} (h : Simulates p C idx sys w) (hw : w.written p i t ok k = some w') :
    WiresBound p (Sent idx sys) w'.wires w'.writers ∧ Stay w.wires w'.wires := by
  unfold World.written at hw
  split at hw
  · rename_i n m hn hm
    obtain ⟨hsized, hsent⟩ := h.outgoing hm
    -- the stream is that of this writer and of no other
    have hown : ∀ i' t', w.writers i' t' = .connected n → i' = i ∧ t' = t := by
      intro i' t' hn'
      obtain ⟨r, ms, hr, hs, ht, -⟩ := h.wires.whole i t n hn
      obtain ⟨r', ms', hr', hs', ht', -⟩ := h.wires.whole i' t' n hn'
      obtain rfl := Option.some.inj (hr.symm.trans hr')
      exact ⟨Option.some.inj (hs'.symm.trans hs), ht'.symm.trans ht⟩
    obtain ⟨r, ms, hr, hs, ht, hc⟩ := h.wires.whole i t n hn
    obtain ⟨hwhole, hpart⟩ := hc.append (k := k) hsized hsent
    split at hw
    · obtain rfl := Option.some.inj hw
      refine ⟨h.wires.modify (append_ends _) (fun _ _ _ hn => hn) (fun r' hr' _ => ?_)
        (fun i' t' r' hn' hr' => ?_), stay_modify (fun r => (append_ends _ r).2) n⟩
      · obtain rfl := Option.some.inj (hr.symm.trans hr')
        rw [ht]
        obtain ⟨ms', hc'⟩ := hwhole
        exact ⟨ms', [], hc'⟩
      · obtain rfl := Option.some.inj (hr.symm.trans hr')
        obtain ⟨rfl, rfl⟩ := hown i' t' hn'
        exact hwhole
    · split at hw
      · rename_i hk
        obtain rfl := Option.some.inj hw
        have hfailed : ∀ i' t' n, Function.update w.writers i (Function.update (w.writers i) t .failed) i' t' =
            .connected n → w.writers i' t' = .connected n ∧ ¬ (i' = i ∧ t' = t) := by
          intro i' t' n hn
          rw [update_writer] at hn
          split at hn
          · cases hn
          · rename_i hne
            exact ⟨hn, hne⟩
        refine ⟨h.wires.modify (append_ends _) (fun i' t' n' hn' => ?_) (fun r' hr' _ => ?_)
          (fun i' t' r' hn' hr' => ?_), stay_modify (fun r => (append_ends _ r).2) n⟩
        · exact (hfailed i' t' n' hn').1
        · obtain rfl := Option.some.inj (hr.symm.trans hr')
          rw [ht]
          exact hpart hk
        · obtain ⟨hold, hne⟩ := hfailed i' t' n hn'
          exact absurd (hown i' t' hold) hne
      · cases hw
  · split at hw
    · cases hw
    · obtain rfl := Option.some.inj hw
      exact ⟨h.wires, stay_refl _⟩
  · cases hw

/-! ### Steps -/

theorem Simulates.still (h : Simulates p C idx sys w) (hnodes : w'.nodes = w.nodes) (hconns : w'.conns = w.conns)
    (hwires : WiresBound p (Sent idx sys) w'.wires w'.writers) (hstay : Stay w.wires w'.wires) :
    Simulates p C idx sys w' := by
  refine ⟨by rw [hnodes]; exact h.kept, by rw [hnodes]; exact h.procs, by rw [hnodes]; exact h.bound, hwires, ?_⟩
  rw [hconns]
  exact hstay.conns h.conns

/-- A stream is accepted by its target. -/
theorem Simulates.accepts {r : Wire} (h : Simulates p C idx sys w) (hn : w.wires[n]? = some r)
    (ht : r.target = t) :
    Simulates p C idx sys { w with conns := Function.update w.conns t (w.conns t ++ [n]) } := by
  refine ⟨h.kept, h.procs, h.bound, h.wires, fun t' n' hn' => ?_⟩
  dsimp only at hn' ⊢
  rcases eq_or_ne t' t with rfl | hne
  · rw [Function.update_self] at hn'
    rcases List.mem_append.mp hn' with hold | hnew
    · exact h.conns t' n' hold
    · obtain rfl := List.mem_singleton.mp hnew
      exact ⟨r, hn, ht⟩
  · rw [Function.update_of_ne hne] at hn'
    exact h.conns t' n' hn'

/-- A step of a process that takes bytes from a stream, or puts bytes into one. -/
theorem Simulates.external (h : Simulates p C idx sys w) (hr : SystemRun (p.params idx) (AtQuorum C) tr' sys)
    (hC : ∀ r m e, C r m e → TagGrows (p.params idx) r m e) (hn : w.node p i e = some w')
    (he : internal e = false)
    (hread : ∀ c stream m rest, e = .read c stream →
      deserializeRc p.hmac p.keys stream = .ok ((.system m, true), rest) → Sent idx sys i m) :
    ∃ l sys', Matched (Register.step (p.params idx)) (AtQuorum C) sys l sys' ∧ Simulates p C idx sys' w' ∧
      (∀ u ∈ sys'.opIds, u ∈ sys.opIds) ∧ history l = [] := by
  obtain ⟨hdraws, hhandling, hquiet⟩ : draws (w.nodes i) e = none ∧ Node.handling (w.nodes i) e = none ∧
      Node.Quiet idx.toNat e := by
    unfold internal at he
    split at he
    · exact ⟨rfl, rfl, by simp [Node.Quiet]⟩
    · exact ⟨rfl, rfl, by simp [Node.Quiet]⟩
    · exact ⟨rfl, rfl, by simp [Node.Quiet]⟩
    · cases he
  obtain ⟨l, sys', hans, hsim⟩ := h.node hr hC hn (by simp [MetBy, hhandling]) (by simp [hdraws]) hread
  rw [hdraws, served_quiet hquiet] at hans
  refine ⟨l, sys', hans.matched, hsim, fun u hu => ?_, hans.history⟩
  rcases hans.opIds u hu with hold | hnew
  · exact hold
  · cases hnew

/-- What is read from a stream has been sent to the process that reads it. -/
theorem Simulates.reads (h : Simulates p C idx sys w) {c : ℕ} {r : Wire} (hc : (w.conns t)[c]? = some n)
    (hn : w.wires[n]? = some r) (hforged : Unforged p w (.read t c k)) {m : SystemRegisterCommand}
    {rest : List UInt8}
    (hread : deserializeRc p.hmac p.keys (r.unread.take k) = .ok ((.system m, true), rest)) : Sent idx sys t m := by
  obtain ⟨r', hr', ht⟩ := h.conns t n (List.mem_of_getElem? hc)
  obtain rfl := Option.some.inj (hn.symm.trans hr')
  rcases eq_or_ne r.source none with hnone | hsome
  · have hfalse := hforged n hc r hn hnone
    rw [hread] at hfalse
    cases hfalse
  · obtain ⟨ms, tail, hcarries⟩ := h.wires.carries n r hn hsome
    obtain ⟨m', ms', rfl, heq, -⟩ := hcarries.read hread
    obtain rfl : m = m' := by simpa using heq
    rw [← ht]
    exact (hcarries.messages m (List.mem_cons_self ..)).2

/-- One step is answered in the register system. -/
theorem Simulates.step {x : Entry World Event Unit} (h : Simulates p C idx sys x.pre)
    (hr : SystemRun (p.params idx) (AtQuorum C) tr' sys) (hfresh : ∀ u ∈ sys.opIds, u ∈ x.pre.drawn)
    (hC : ∀ r m e, C r m e → TagGrows (p.params idx) r m e) (hP : Admitted p C x.pre x.event)
    (hs : Cluster.step p x.pre x.event = some (x.post, x.out)) :
    ∃ l sys', Matched (Register.step (p.params idx)) (AtQuorum C) sys l sys' ∧
      Simulates p C idx sys' x.post ∧ (∀ u ∈ sys'.opIds, u ∈ x.post.drawn) ∧
      history l = servedIn idx x := by
  obtain ⟨w, e, o, w'⟩ := x
  obtain ⟨hforged, hmet⟩ := hP
  cases e with
  | node i e =>
    simp only [Cluster.step] at hs
    split at hs
    · rename_i hguard
      obtain ⟨w₁, hn, heq⟩ := Option.map_eq_some_iff.mp hs
      obtain ⟨rfl, -⟩ := Prod.mk.inj heq
      obtain ⟨l, sys', hans, hsim⟩ := h.node hr hC hn hmet
        (fun u hu hold => hguard.2.2 u hu (hfresh u hold)) (by rintro c stream m rest rfl; cases hguard.1)
      refine ⟨l, sys', hans.matched, hsim.still rfl rfl hsim.wires (stay_refl _), fun u hu => ?_, hans.history⟩
      rcases hans.opIds u hu with hold | hnew
      · exact List.mem_append_right _ (hfresh u hold)
      · exact List.mem_append_left _ (by simpa using hnew)
    · cases hs
  | connect i t =>
    simp only [Cluster.step] at hs
    split at hs
    · split at hs
      · obtain ⟨rfl, -⟩ := Prod.mk.inj (Option.some.inj hs)
        refine ⟨[], sys, .stutter, h.still rfl rfl (h.wires.connect (some i) t fun i' t' n hn => ?_) (stay_append _),
          hfresh, rfl⟩
        simp only [update_writer] at hn
        split at hn
        · rename_i heq
          exact Or.inr ⟨(Writer.connected.inj hn).symm, by rw [heq.1], heq.2⟩
        · exact Or.inl hn
      · cases hs
    · cases hs
  | dial t =>
    simp only [Cluster.step] at hs
    split at hs
    · obtain ⟨rfl, -⟩ := Prod.mk.inj (Option.some.inj hs)
      exact ⟨[], sys, .stutter, h.still rfl rfl (h.wires.connect none t fun i' t' n hn => Or.inl hn) (stay_append _),
        hfresh, rfl⟩
    · cases hs
  | bytes n bs =>
    simp only [Cluster.step] at hs
    split at hs
    · rename_i target unread live hn
      obtain ⟨rfl, -⟩ := Prod.mk.inj (Option.some.inj hs)
      exact ⟨[], sys, .stutter, h.still rfl rfl (h.wires.bytes hn bs) (stay_modify (fun r => (append_ends bs r).2) n),
        hfresh, rfl⟩
    · cases hs
  | accept t n =>
    simp only [Cluster.step] at hs
    split at hs
    · rename_i r hn
      split at hs
      · rename_i hguard
        obtain ⟨w₁, hnode, heq⟩ := Option.map_eq_some_iff.mp hs
        obtain ⟨rfl, -⟩ := Prod.mk.inj heq
        obtain ⟨l, sys', hmatch, hsim, hids, hhist⟩ := h.external hr hC hnode rfl (by simp)
        obtain ⟨r', hr', ht'⟩ := node_stay hnode n r hn
        refine ⟨l, sys', hmatch, hsim.accepts hr' (ht'.trans hguard.1), fun u hu => ?_, hhist⟩
        exact node_drawn hnode ▸ hfresh u (hids u hu)
      · cases hs
    · cases hs
  | read t c k =>
    simp only [Cluster.step] at hs
    split at hs
    · rename_i n hc
      split at hs
      · rename_i r hn
        obtain ⟨w₁, hnode, heq⟩ := Option.map_eq_some_iff.mp hs
        obtain ⟨rfl, -⟩ := Prod.mk.inj heq
        obtain ⟨l, sys', hmatch, hsim, hids, hhist⟩ := h.external hr hC hnode rfl (by
          rintro c' stream m rest ⟨⟩ hread
          exact h.reads hc hn hforged hread)
        refine ⟨l, sys', hmatch, hsim.still rfl rfl (hsim.wires.consume n k)
          (stay_modify (fun r => (consume_ends p k r).2) n), fun u hu => ?_, hhist⟩
        exact node_drawn hnode ▸ hfresh u (hids u hu)
      · cases hs
    · cases hs
  | write i t ok k =>
    simp only [Cluster.step] at hs
    obtain ⟨w₁, hwritten, hs⟩ := Option.bind_eq_some_iff.mp hs
    obtain ⟨w₂, hnode, heq⟩ := Option.map_eq_some_iff.mp hs
    obtain ⟨rfl, -⟩ := Prod.mk.inj heq
    obtain ⟨hnodes, hconns, hdrawn, -⟩ := written_same hwritten
    obtain ⟨hwires, hstay⟩ := h.written hwritten
    obtain ⟨l, sys', hmatch, hsim, hids, hhist⟩ :=
      (h.still hnodes hconns hwires hstay).external hr hC hnode rfl (by simp)
    refine ⟨l, sys', hmatch, hsim, fun u hu => ?_, hhist⟩
    rw [node_drawn hnode, hdrawn]
    exact hfresh u (hids u hu)

/-! ### Runs -/

/-- Processes that have not been started have nothing stored, as the registers at the beginning. -/
theorem simulates_init : Simulates p C idx (Register.init (p.params idx)) Cluster.init := by
  refine ⟨fun i => Node.kept_init _, fun i _ => ⟨fun d hd => ?_, fun r hr => (init_register hr).2⟩,
    fun i => nodeBound_init, ⟨by simp [Cluster.init], by simp [Cluster.init]⟩, by simp [Cluster.init]⟩
  obtain rfl : d = none := hd.unique Storage.newest_none
  rfl

/-- Every run of all processes is, for each sector, a run of the registers of that sector. -/
theorem simulated (hC : ∀ r m e, C r m e → TagGrows (p.params idx) r m e) (hr : ClusterRun p C tr w) :
    ∃ tr' sys, SystemRun (p.params idx) (AtQuorum C) tr' sys ∧ Simulates p C idx sys w ∧
      (∀ u ∈ sys.opIds, u ∈ w.drawn) ∧ history tr' = workerHistory idx tr := by
  refine Run.simulate (R := fun tr w tr' sys => Simulates p C idx sys w ∧ (∀ u ∈ sys.opIds, u ∈ w.drawn) ∧
    history tr' = workerHistory idx tr) ⟨simulates_init, by simp [Register.init], rfl⟩ ?_ hr
  rintro tr x tr' sys - hrun ⟨hsim, hfresh, hhist⟩ hP hs
  obtain ⟨l, sys', hmatch, hsim', hfresh', hhist'⟩ := hsim.step hrun hfresh hC hP hs
  refine ⟨l, sys', hmatch, hsim', hfresh', ?_⟩
  have happend : history (tr' ++ l) = history tr' ++ history l := List.flatMap_append
  rw [happend, hhist, hhist', workerHistory, workerHistory, List.flatMap_append, List.flatMap_singleton]

end AtomicDisk.Cluster
