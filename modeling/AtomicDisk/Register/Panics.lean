import AtomicDisk.Register.Handlers

/-! When a handler of the register panics by itself. The guards of VALUE and ACK start with
    `self.op_id.unwrap()`, and `op_id` is `None` until the first `client_command` of an incarnation. A
    reply that reaches a freshly built register, say one to an operation of the incarnation before a
    crash, therefore panics instead of being ignored. Once an operation has been started no handler
    panics (the other `unwrap`s find what the same `client_command` has set), and stale replies are
    ignored. -/

namespace AtomicDisk.Register
open Schemes

variable {κ : Type}

/-- The states of one incarnation of a register: built from the storage, then any calls of
    `client_command` and `system_command`. The second index is the id of the operation that the
    incarnation started last. -/
inductive Incarnation (oc : Bool) : AtomicRegisterState κ → Option Uuid → Prop
  | build (selfIdent : UInt8) (sectorIdx : SectorIdx) (processesCount : UInt8)
      (sector : SectorVec × UInt64 × UInt8) :
      Incarnation oc (buildAtomicRegister selfIdent sectorIdx processesCount sector) none
  | client {r last} (cmd : ClientRegisterCommand) (f : κ) (uuid : Uuid) : Incarnation oc r last →
      Incarnation oc (clientCommand r cmd f uuid).1 (some uuid)
  | system {r r' last effs} (order : IterOrder UInt8 ReadEntry) (cmd : SystemRegisterCommand) :
      Incarnation oc r last → systemCommand oc order r cmd = some (r', effs) →
      Incarnation oc r' last

/-- A timestamp to which one can be added. -/
def BelowMax (t : UInt64) : Prop := t.toNat < 2 ^ 64 - 1

instance (t : UInt64) : Decidable (BelowMax t) := inferInstanceAs (Decidable (_ < _))

/-- Every timestamp the register holds and every one the command carries is below `2^64 - 1`. -/
structure TimestampsFit (r : AtomicRegisterState κ) (cmd : SystemRegisterCommand) : Prop where
  own : BelowMax r.ts
  readlist : ∀ k e, r.readlist.lookup k = some e → BelowMax e.1
  value : ∀ t w d, cmd.content = .value t w d → BelowMax t
  writeProc : ∀ t w d, cmd.content = .writeProc t w d → BelowMax t

/-- VALUE and ACK, the replies to an operation's own messages. -/
def IsReply (cmd : SystemRegisterCommand) : Prop :=
  (∃ t w d, cmd.content = .value t w d) ∨ cmd.content = .ack

variable {oc : Bool} {r r' : AtomicRegisterState κ} {last : Option Uuid}
  {cmd : SystemRegisterCommand} {order : IterOrder UInt8 ReadEntry} {effs : List (Effect κ)}

/-- `op_id` is the last operation started, and `rid` is set with it. -/
theorem Incarnation.ids (hr : Incarnation oc r last) :
    r.opId = last ∧ (r.opId.isSome → r.rid.isSome) := by
  induction hr with
  | build => exact ⟨rfl, fun h => by simp [buildAtomicRegister, AtomicRegisterState.new] at h⟩
  | client cmd f uuid _ _ =>
    cases hc : cmd.content with
    | read => simp [clientCommand, hc]
    | write data => simp [clientCommand, hc]
  | system order cmd _ hs ih =>
    obtain ⟨hop, hrid⟩ := (systemCommand_handled hs).ids
    rw [hop, hrid]; exact ih

/-! ### No panic once an operation has been started -/

/-- The end of the VALUE handler does not panic: the readlist has at least the own entry, and its
    timestamps can be incremented. -/
theorem startWritePhase_total (hown : BelowMax r.ts)
    (hlist : ∀ k e, r.readlist.lookup k = some e → BelowMax e.1) (sidx : SectorIdx) (id : Uuid) :
    ∃ r' effs, startWritePhase oc order r sidx id = some (r', effs) := by
  have hmem : (⟨r.selfIdent, (r.ts, r.wr, r.val)⟩ : Σ _ : UInt8, ReadEntry) ∈
      order.iter (r.readlist.insert r.selfIdent (r.ts, r.wr, r.val)).entries :=
    order.mem_iter.mpr (AList.lookup_insert _)
  have hsome : ∃ x, maxBy cmpEntries (order.iter
      (r.readlist.insert r.selfIdent (r.ts, r.wr, r.val)).entries) = some x :=
    maxBy_isSome (List.ne_nil_of_mem hmem)
  obtain ⟨⟨k, maxts, rr, readval⟩, hmax⟩ := hsome
  have hfits : BelowMax maxts := by
    obtain ⟨⟨k', hk'⟩, -⟩ := highest_of_maxBy hmax
    by_cases hself : k' = r.selfIdent
    · rw [hself, AList.lookup_insert] at hk'
      obtain rfl : r.ts = maxts := (Prod.mk.inj (Option.some.inj hk')).1
      exact hown
    · rw [AList.lookup_insert_ne hself] at hk'
      exact hlist k' _ hk'
  simp only [BelowMax] at hfits
  obtain ⟨ts, hadd, -⟩ := addU64_next oc (a := maxts) (by omega)
  unfold startWritePhase
  simp only [hmax, Option.bind_eq_bind, Option.bind_some, hadd]
  split
  · exact ⟨_, _, rfl⟩
  · exact ⟨_, _, rfl⟩

theorem onValue_total {id : Uuid} (hop : r.opId = some id) (hfit : TimestampsFit r cmd) {t : UInt64}
    {w : UInt8} {d : SectorVec} (hc : cmd.content = .value t w d) :
    ∃ r' effs, onValue oc order r cmd.header (t, w, d) = some (r', effs) := by
  unfold onValue
  simp only [hop, Option.bind_eq_bind, Option.bind_some]
  split
  · split
    · apply startWritePhase_total
      · exact hfit.own
      intro k e hk
      by_cases hq : k = cmd.header.processIdentifier
      · rw [hq, AList.lookup_insert] at hk
        obtain rfl := Option.some.inj hk
        exact hfit.value t w d hc
      · rw [AList.lookup_insert_ne hq] at hk
        exact hfit.readlist k e hk
    · exact ⟨_, _, rfl⟩
  · exact ⟨_, _, rfl⟩

theorem respond_total (hrid : r.rid.isSome) (ret : OperationReturn) :
    ∃ r' effs, respond r ret = some (r', effs) := by
  obtain ⟨rid, hrid⟩ := Option.isSome_iff_exists.mp hrid
  unfold respond
  cases hcb : r.callback with
  | none => exact ⟨_, _, rfl⟩
  | some f => exact ⟨_, _, by simp only [hrid]; rfl⟩

theorem onAck_total {id : Uuid} (hop : r.opId = some id) (hrid : r.rid.isSome)
    (h : SystemCommandHeader) : ∃ r' effs, onAck r h = some (r', effs) := by
  unfold onAck completeOperation
  simp only [hop, Option.bind_eq_bind, Option.bind_some]
  split
  · split
    · split
      · apply respond_total; exact hrid
      · apply respond_total; exact hrid
    · exact ⟨_, _, rfl⟩
  · exact ⟨_, _, rfl⟩

/-- READ_PROC and WRITE_PROC unwrap nothing. -/
theorem systemCommand_total_of_not_reply (hc : ¬ IsReply cmd) :
    ∃ r' effs, systemCommand oc order r cmd = some (r', effs) := by
  unfold systemCommand
  cases hcont : cmd.content with
  | readProc => exact ⟨_, _, rfl⟩
  | writeProc t w d =>
    simp only [onWriteProc]
    split
    · exact ⟨_, _, rfl⟩
    · exact ⟨_, _, rfl⟩
  | value t w d => exact absurd (Or.inl ⟨t, w, d, hcont⟩) hc
  | ack => exact absurd (Or.inr hcont) hc

/-- With an operation started, every command is handled. -/
theorem systemCommand_total {id : Uuid} (hop : r.opId = some id) (hrid : r.rid.isSome)
    (hfit : TimestampsFit r cmd) : ∃ r' effs, systemCommand oc order r cmd = some (r', effs) := by
  by_cases hreply : IsReply cmd
  · unfold systemCommand
    rcases hreply with ⟨t, w, d, hc⟩ | hc
    · rw [hc]; exact onValue_total hop hfit hc
    · rw [hc]; exact onAck_total hop hrid cmd.header
  · exact systemCommand_total_of_not_reply hreply

/-- A register of a one-process system, just built on an empty storage. -/
def freshRegister : AtomicRegisterState Unit := buildAtomicRegister 1 0 1 (.zeros, 0, 0)

/-- The same register after a read has been started. -/
def readingRegister : AtomicRegisterState Unit := (clientCommand freshRegister ⟨⟨7, 0⟩, .read⟩ () (uuid 1)).1

end AtomicDisk.Register
