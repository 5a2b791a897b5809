import AtomicDisk.Register.System

/-! What holds in every run of the system, whatever entry the readlist maximum picks. `WellFormed`: a
    register knows who it is, agrees with its storage, and its flags tell exactly whether and which
    client command is uncompleted. `Evidence`: whatever a register has collected was sent by the
    process it is attributed to, in answer to the operation it is counted for, after that operation
    started. -/

namespace AtomicDisk.Register
open Schemes

/-! ### Operations of a trace -/

/-- The entry is the `client_command` call that draws the operation id `id`. -/
def starts (id : Uuid) (x : Step) : Bool :=
  match x.event with
  | .clientCommand _ _ u _ => decide (u = id)
  | _ => false

/-- The part of the trace after operation `id` has started. -/
def since (id : Uuid) (tr : Trace) : Trace := after (starts id) tr

/-- Process `i` has started operation `id` for the client command `cmd`. -/
def Started (tr : Trace) (i : UInt8) (id : Uuid) (cmd : ClientRegisterCommand) : Prop :=
  ∃ x ∈ tr, ∃ cut, x.event = .clientCommand i cmd id cut

variable {p : Params} {P : System → Event → Prop} {tr : Trace} {w w' : System} {e : Event}
  {es : List (Effect Uuid)}

theorem Started.append {i : UInt8} {id : Uuid} {cmd : ClientRegisterCommand}
    (h : Started tr i id cmd) (l : Trace) : Started (tr ++ l) i id cmd := by
  obtain ⟨x, hx, hev⟩ := h
  exact ⟨x, List.mem_append_left _ hx, hev⟩

theorem starts_iff {id : Uuid} {x : Step} :
    starts id x = true ↔ ∃ i cmd cut, x.event = .clientCommand i cmd id cut := by
  unfold starts
  cases hx : x.event with
  | clientCommand i cmd u cut =>
    simp only [decide_eq_true_eq, Event.clientCommand.injEq]
    constructor
    · rintro rfl; exact ⟨i, cmd, cut, rfl, rfl, rfl, rfl⟩
    · rintro ⟨_, _, _, -, -, h, -⟩; exact h
  | _ => simp

/-- The ids drawn so far are those of the operations started so far. -/
theorem opIds_iff (hr : SystemRun p P tr w) (id : Uuid) :
    id ∈ w.opIds ↔ ∃ x ∈ tr, starts id x = true := by
  refine hr.invariant (I := fun tr w => id ∈ w.opIds ↔ ∃ x ∈ tr, starts id x = true) ?_ ?_
  · simp [init]
  · intro tr x _ ih _ hs
    have hsplit : (∃ y ∈ tr ++ [x], starts id y = true) ↔ id ∈ x.pre.opIds ∨ starts id x = true := by
      simp [ih, or_and_right, exists_or]
    rw [hsplit, starts_iff]
    cases step_stepped hs with
    | client hi => obtain ⟨cut, he⟩ := hi.event; simp [he, hi.opIds, or_comm, eq_comm]
    | system hd => obtain ⟨order, cut, he⟩ := hd.event; simp [he, hd.opIds]
    | restart hq => simp [hq.event, hq.opIds]

/-- At an entry that starts an operation, the id has not been drawn before. -/
theorem fresh_at_start (hr : SystemRun p P tr w) {l₁ l₂ : Trace}
    {x : Step} {id : Uuid} (htr : tr = l₁ ++ x :: l₂)
    (hx : starts id x = true) : ∀ y ∈ l₁, ¬ starts id y = true := by
  obtain ⟨hrun, -, hs⟩ := hr.split htr
  obtain ⟨i, cmd, cut, hev⟩ := starts_iff.mp hx
  intro y hy hsy
  have hid : id ∈ x.pre.opIds := (opIds_iff hrun id).mpr ⟨y, hy, hsy⟩
  cases step_stepped hs with
  | client hi =>
    obtain ⟨cut', he⟩ := hi.event
    rw [hev] at he
    cases he
    exact hi.fresh hid
  | system hd => obtain ⟨order, cut', he⟩ := hd.event; rw [hev] at he; cases he
  | restart hq => exact hq.event _ _ _ _ hev

/-- An operation id is drawn once. -/
theorem start_unique (hr : SystemRun p P tr w) {x y : Step}
    {id : Uuid} (hx : x ∈ tr) (hy : y ∈ tr) (hsx : starts id x = true) (hsy : starts id y = true) :
    x = y := by
  obtain ⟨l₁, l₂, htr⟩ := List.append_of_mem hx
  rw [htr] at hy
  rcases List.mem_append.mp hy with hy | hy
  · exact absurd hsy (fresh_at_start hr htr hsx y hy)
  · rcases List.mem_cons.mp hy with rfl | hy
    · rfl
    · obtain ⟨a, b, rfl⟩ := List.append_of_mem hy
      have htr' : tr = (l₁ ++ x :: a) ++ y :: b := by rw [htr]; simp
      exact absurd hsx (fresh_at_start hr htr' hsy x (by simp))

theorem Started.unique (hr : SystemRun p P tr w) {i j : UInt8} {id : Uuid}
    {cmd cmd' : ClientRegisterCommand} (h : Started tr i id cmd) (h' : Started tr j id cmd') :
    i = j ∧ cmd = cmd' := by
  obtain ⟨x, hx, cut, hev⟩ := h
  obtain ⟨y, hy, cut', hev'⟩ := h'
  obtain rfl := start_unique hr hx hy (starts_iff.mpr ⟨_, _, _, hev⟩) (starts_iff.mpr ⟨_, _, _, hev'⟩)
  rw [hev] at hev'
  cases hev'
  exact ⟨rfl, rfl⟩

/-- Later steps of a run are appended to what follows the start of an operation. -/
theorem since_snoc (hr : SystemRun p P tr w) {id : Uuid} (hid : id ∈ w.opIds)
    (x : Step) : since id (tr ++ [x]) = since id tr ++ [x] :=
  after_append [x] ((opIds_iff hr id).mp hid)

/-! ### Registers, storage and client commands -/

/-- What holds of a register that is up, with what its process has stored and the client command it
    has not completed. -/
structure Live (p : Params) (tr : Trace) (i : UInt8) (r : AtomicRegisterState Uuid)
    (sector : SectorVec × UInt64 × UInt8) (pending : Option Uuid) : Prop where
  process : i ∈ processes p
  self : r.selfIdent = i
  count : r.processesCount = p.processesCount
  sectorIdx : r.sectorIdx = p.sectorIdx
  durable : sector = (r.val, r.ts, r.wr)
  started : ∀ id, r.opId = some id → ∃ cmd, Started tr i id cmd
  idle : pending = none → r.reading = false ∧ r.writing = false ∧ r.writePhase = false ∧
    r.callback = none
  busy : ∀ id, pending = some id → r.opId = some id ∧ r.callback = some id ∧
    ∃ cmd, Started tr i id cmd ∧ WorksOn r cmd

/-- Every register that is up is live in this sense; a process that is down works on nothing. -/
structure WellFormed (p : Params) (tr : Trace) (w : System) : Prop where
  live : ∀ i r, (w.process i).register = some r →
    Live p tr i r (w.process i).sector (w.process i).pending
  down : ∀ i, (w.process i).register = none → (w.process i).pending = none

theorem Live.append {i : UInt8} {r : AtomicRegisterState Uuid} {s : SectorVec × UInt64 × UInt8}
    {pend : Option Uuid} (h : Live p tr i r s pend) (l : Trace) : Live p (tr ++ l) i r s pend := by
  refine ⟨h.process, h.self, h.count, h.sectorIdx, h.durable, fun id hop => ?_, h.idle,
    fun id hpend => ?_⟩
  · obtain ⟨cmd, hcmd⟩ := h.started id hop
    exact ⟨cmd, hcmd.append l⟩
  · obtain ⟨hop, hcb, cmd, hcmd, hw⟩ := h.busy id hpend
    exact ⟨hop, hcb, cmd, hcmd.append l, hw⟩

/-- A register that has just been built from its storage. -/
theorem live_build {i : UInt8} (hi : i ∈ processes p) (s : SectorVec × UInt64 × UInt8) :
    Live p tr i (buildAtomicRegister i p.sectorIdx p.processesCount s) s none := by
  refine ⟨hi, rfl, rfl, rfl, rfl, fun id hop => ?_, fun _ => ⟨rfl, rfl, rfl, rfl⟩, fun id h => ?_⟩
  · simp [buildAtomicRegister, AtomicRegisterState.new] at hop
  · simp at h

theorem Live.isIdle {i : UInt8} {r : AtomicRegisterState Uuid} {s : SectorVec × UInt64 × UInt8}
    (h : Live p tr i r s none) : Idle r := by
  obtain ⟨hread, hwrite, hphase, hcb⟩ := h.idle rfl
  exact ⟨hread, hwrite, hphase, hcb⟩

/-- A register that has just been given a client command. -/
theorem Live.client {i : UInt8} {r : AtomicRegisterState Uuid} {s : SectorVec × UInt64 × UInt8}
    (h : Live p tr i r s none) {cmd : ClientRegisterCommand} {id : Uuid} (hst : Started tr i id cmd) :
    Live p tr i (clientCommand r cmd id id).1 s (some id) := by
  obtain ⟨hworks, hcb⟩ := h.isIdle.clientCommand cmd id id
  obtain ⟨hself, hcount, hsec⟩ := clientCommand_identity r cmd id id
  obtain ⟨hts, hwr, hval⟩ := clientCommand_copy r cmd id id
  have hop := clientCommand_opId r cmd id id
  refine ⟨h.process, hself.trans h.self, hcount.trans h.count, hsec.trans h.sectorIdx, ?_,
    fun id' hop' => ?_, by simp, fun id' hid => ?_⟩
  · rw [hts, hwr, hval]
    exact h.durable
  · obtain rfl : id = id' := Option.some.inj (hop.symm.trans hop')
    exact ⟨cmd, hst⟩
  · obtain rfl := Option.some.inj hid
    exact ⟨hop, hcb, cmd, hst, hworks⟩

/-- A register that works on a client command has one that is uncompleted, of the same kind. -/
theorem Live.working {i : UInt8} {r : AtomicRegisterState Uuid} {s : SectorVec × UInt64 × UInt8}
    {pend : Option Uuid} (h : Live p tr i r s pend) (hflag : (r.reading || r.writing) = true) :
    ∃ id cmd, pend = some id ∧ r.opId = some id ∧ r.callback = some id ∧ Started tr i id cmd ∧
      WorksOn r cmd := by
  cases hp : pend with
  | none =>
    obtain ⟨hread, hwrite, -, -⟩ := h.idle hp
    simp [hread, hwrite] at hflag
  | some id =>
    obtain ⟨hop, hcb, cmd, hst, hw⟩ := h.busy id hp
    exact ⟨id, cmd, rfl, hop, hcb, hst, hw⟩

theorem answered_eq_false {f : Uuid} (h : ∀ f op, .callback f op ∉ es) : answered f es = false := by
  rw [answered, List.any_eq_false]
  intro e he
  cases e with
  | callback g op => exact absurd he (h g op)
  | _ => simp

theorem filter_unanswered (pend : Option Uuid) (h : ∀ f op, .callback f op ∉ es) :
    (pend.filter fun f => !answered f es) = pend := by
  cases pend <;> simp [answered_eq_false h]

/-- What is stored is what the register holds. -/
theorem Handled.durable {r r' : AtomicRegisterState Uuid} {s : SectorVec × UInt64 × UInt8} {oc : Bool}
    {hd : SystemCommandHeader} {c : SystemRegisterCommandContent} (hh : Handled oc r hd c r' es)
    (hsec : r.sectorIdx = p.sectorIdx) (hdur : s = (r.val, r.ts, r.wr)) :
    stored p s es = (r'.val, r'.ts, r'.wr) := by
  cases hh with
  | writeProcAdopt | valueWrite => simp [stored, hsec]
  | _ => simpa [stored] using hdur

/-- A register keeps this through every branch of `system_command`. -/
theorem Live.handled {i : UInt8} {r r' : AtomicRegisterState Uuid}
    {s : SectorVec × UInt64 × UInt8} {pend : Option Uuid} (h : Live p tr i r s pend)
    {hd : SystemCommandHeader} {c : SystemRegisterCommandContent}
    (hh : Handled p.overflowChecks r hd c r' es) :
    Live p tr i r' (stored p s es) (pend.filter fun f => !answered f es) := by
  obtain ⟨hself, hcount, hsec⟩ := hh.identity
  obtain ⟨hop, -⟩ := hh.ids
  -- what does not depend on the client command
  have hlive : ∀ pend', (pend' = none → Idle r') → (∀ id, pend' = some id → r'.opId = some id ∧
      r'.callback = some id ∧ ∃ cmd, Started tr i id cmd ∧ WorksOn r' cmd) →
      Live p tr i r' (stored p s es) pend' := by
    intro pend' hidle hbusy
    refine ⟨h.process, hself.trans h.self, hcount.trans h.count, hsec.trans h.sectorIdx,
      hh.durable h.sectorIdx h.durable, fun id hid => h.started id (hop ▸ hid), fun hnone => ?_, hbusy⟩
    obtain ⟨hread, hwrite, hphase, hcb⟩ := hidle hnone
    exact ⟨hread, hwrite, hphase, hcb⟩
  cases pend with
  | none => exact hlive none (fun _ => (hh.idle h.isIdle).1) (by simp)
  | some id =>
    obtain ⟨hid, hcb, cmd, hst, hworks⟩ := h.busy id rfl
    rcases hh.working hworks hcb with ⟨hworks', hcb', hnone⟩ | ⟨hidle, rid, rfl⟩
    · rw [filter_unanswered _ hnone]
      refine hlive _ (by simp) fun id' hid' => ?_
      obtain rfl := Option.some.inj hid'
      exact ⟨hop.trans hid, hcb', cmd, hst, hworks'⟩
    · -- the callback invoked is the one of the uncompleted command
      exact hlive _ (fun _ => hidle) (by simp [answered])

/-- Every run keeps the system well formed. -/
theorem wellFormed (hr : SystemRun p P tr w) : WellFormed p tr w := by
  refine hr.invariant ?_ ?_
  · refine ⟨fun i r hreg => ?_, fun i _ => rfl⟩
    obtain ⟨hi, rfl⟩ := init_register hreg
    exact live_build (mem_processes.mpr hi) _
  · intro tr x _ ih _ hs
    -- a process that does not move keeps what it has
    have hkeep : ∀ i reg pend es, Moved p x i reg pend es →
        (∀ r, reg = some r → Live p (tr ++ [x]) i r (stored p (x.pre.process i).sector es)
          (pend.filter fun f => !answered f es)) → WellFormed p (tr ++ [x]) x.post := by
      intro i reg pend es hm hnew
      refine ⟨fun j r hreg => ?_, fun j hnone => ?_⟩
      · rcases eq_or_ne j i with rfl | hne
        · rw [hm.register] at hreg
          rw [hm.sector, hm.pending, hreg]
          exact hnew r hreg
        · rw [hm.other j hne] at hreg ⊢
          exact (ih.live j r hreg).append [x]
      · rcases eq_or_ne j i with rfl | hne
        · rw [hm.register] at hnone
          rw [hm.pending, hnone]; rfl
        · rw [hm.other j hne] at hnone ⊢
          exact ih.down j hnone
    cases step_stepped hs with
    | client hi =>
      obtain ⟨reg, hconc, hm⟩ := hi.moved
      refine hkeep _ _ _ _ hm fun r' hr' => ?_
      obtain ⟨rfl, hes⟩ | ⟨rfl, -⟩ := hconc
      · obtain rfl := Option.some.inj hr'
        have hlive := (ih.live _ _ hi.register).append [x]
        rw [hi.idle] at hlive
        have hst := hlive.client ⟨x, by simp, hi.event⟩
        rw [hes, clientCommand_effects, filter_unanswered _ (by simp)]
        exact hst
      · simp at hr'
    | system hd =>
      obtain ⟨reg, hconc, hm⟩ := hd.moved
      refine hkeep _ _ _ _ hm fun r' hr' => ?_
      obtain ⟨rfl, hes⟩ | ⟨rfl, -⟩ := hconc
      · obtain rfl := Option.some.inj hr'
        rw [hes]
        exact ((ih.live _ _ hd.register).append [x]).handled hd.handled
      · simp at hr'
    | restart hq =>
      rcases hq.moved with hm | ⟨hi, hm⟩
      · exact hkeep _ _ _ _ hm (by simp)
      · refine hkeep _ _ _ _ hm fun r' hr' => ?_
        obtain rfl := Option.some.inj hr'
        exact live_build (mem_processes.mpr hi) _

end AtomicDisk.Register
