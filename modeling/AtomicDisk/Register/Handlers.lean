import AtomicDisk.Register.AtomicRegister
import AtomicDisk.Tag

/-! What one call of `system_command` can do. `Handled` lists the branches of the four handlers, each
    with its guard, the state it leaves and the effects it has; `systemCommand_handled` says that a
    call that does not panic takes one of them. Proofs about runs split on `Handled` and never unfold
    a handler. -/

namespace AtomicDisk.Register
open Schemes

/-- The tag of a readlist entry. -/
def entryTag (e : ReadEntry) : Tag := tag e.1 e.2.1

@[simp] theorem entryTag_mk (t : UInt64) (w : UInt8) (d : SectorVec) : entryTag (t, w, d) = tag t w := rfl

/-! ### The highest entry of the readlist -/

/-- An entry of highest write rank, which is what `max_by` with `cmp_entries` finds. -/
def Highest (m : HashMap UInt8 ReadEntry) (e : ReadEntry) : Prop :=
  (∃ k, m.lookup k = some e) ∧ ∀ k e', m.lookup k = some e' → e'.2.1 ≤ e.2.1

theorem cmpEntries_gt (a b : Σ _ : UInt8, ReadEntry) :
    cmpEntries a b = .gt ↔ b.2.2.1.toNat < a.2.2.1.toNat := by
  simp only [cmpEntries, compare, compareOfLessAndEq, UInt8.lt_iff_toNat_lt, ← UInt8.toNat_inj]
  split_ifs with h1 h2
  · simp; omega
  · simp; omega
  · simp; omega

theorem highest_of_maxBy {order : IterOrder UInt8 ReadEntry} {m : HashMap UInt8 ReadEntry}
    {x : Σ _ : UInt8, ReadEntry} (h : maxBy cmpEntries (order.iter m.entries) = some x) :
    Highest m x.2 := by
  obtain ⟨k, e⟩ := x
  obtain ⟨hmem, hmax⟩ := maxBy_spec (f := fun a : Σ _ : UInt8, ReadEntry => a.2.2.1.toNat)
    cmpEntries_gt h
  refine ⟨⟨k, order.mem_iter.mp hmem⟩, fun k' e' h' => ?_⟩
  exact UInt8.le_iff_toNat_le.mpr (hmax ⟨k', e'⟩ (order.mem_iter.mpr h'))

/-- The sum of a timestamp that is not the last one and 1. -/
theorem addU64_next (oc : Bool) {a : UInt64} (ha : a.toNat + 1 < 2 ^ 64) :
    ∃ b, addU64 oc a 1 = some b ∧ b.toNat = a.toNat + 1 := by
  refine ⟨a + 1, if_neg ?_, ?_⟩
  · rw [UInt64.toNat_one]
    omega
  · rw [UInt64.toNat_add, UInt64.toNat_one, Nat.mod_eq_of_lt ha]

/-! ### The branches of the handlers -/

variable {κ : Type}

/-- The readlist once the VALUE of process `q` has been put in. -/
def collected (r : AtomicRegisterState κ) (q : UInt8) (e : ReadEntry) : HashMap UInt8 ReadEntry :=
  r.readlist.insert q e

/-- The readlist the maximum is taken of: with the register's own entry put in as well. -/
def consulted (r : AtomicRegisterState κ) (q : UInt8) (e : ReadEntry) : HashMap UInt8 ReadEntry :=
  (collected r q e).insert r.selfIdent (r.ts, r.wr, r.val)

/-- The header of what the register sends in answer to, or on account of, a command. -/
def replyHeader (r : AtomicRegisterState κ) (h : SystemCommandHeader) : SystemCommandHeader :=
  ⟨r.selfIdent, h.msgIdent, h.sectorIdx⟩

/-- More than half of the processes. -/
def Majority (r : AtomicRegisterState κ) (n : ℕ) : Prop := r.processesCount.toNat / 2 < n

/-- `client_command` has one effect, the broadcast of READ_PROC. -/
theorem clientCommand_effects (r : AtomicRegisterState κ) (cmd : ClientRegisterCommand) (f : κ)
    (id : Uuid) : (clientCommand r cmd f id).2 =
      [.broadcast ⟨⟨r.selfIdent, id, cmd.header.sectorIdx⟩, .readProc⟩] := by
  cases hc : cmd.content <;> simp [clientCommand, hc]

/-- `client_command` starts with nothing collected. -/
theorem clientCommand_lists (r : AtomicRegisterState κ) (cmd : ClientRegisterCommand) (f : κ)
    (id : Uuid) : (clientCommand r cmd f id).1.readlist = ∅ ∧
      (clientCommand r cmd f id).1.acklist = ∅ := by
  cases hc : cmd.content <;> simp [clientCommand, hc]

@[simp] theorem clientCommand_writePhase (r : AtomicRegisterState κ) (cmd : ClientRegisterCommand)
    (f : κ) (id : Uuid) : (clientCommand r cmd f id).1.writePhase = r.writePhase := by
  cases hc : cmd.content <;> simp [clientCommand, hc]

/-- It draws an operation id, and leaves the register's identity and copy of the sector alone. -/
theorem clientCommand_opId (r : AtomicRegisterState κ) (cmd : ClientRegisterCommand) (f : κ)
    (id : Uuid) : (clientCommand r cmd f id).1.opId = some id := by
  cases hc : cmd.content <;> simp [clientCommand, hc]

theorem clientCommand_identity (r : AtomicRegisterState κ) (cmd : ClientRegisterCommand) (f : κ)
    (id : Uuid) : (clientCommand r cmd f id).1.selfIdent = r.selfIdent ∧
      (clientCommand r cmd f id).1.processesCount = r.processesCount ∧
      (clientCommand r cmd f id).1.sectorIdx = r.sectorIdx := by
  cases hc : cmd.content <;> simp [clientCommand, hc]

theorem clientCommand_copy (r : AtomicRegisterState κ) (cmd : ClientRegisterCommand) (f : κ)
    (id : Uuid) : (clientCommand r cmd f id).1.ts = r.ts ∧ (clientCommand r cmd f id).1.wr = r.wr ∧
      (clientCommand r cmd f id).1.val = r.val := by
  cases hc : cmd.content <;> simp [clientCommand, hc]

/-- A register that has just been built has collected nothing. -/
@[simp] theorem buildAtomicRegister_lists (i n : UInt8) (idx : SectorIdx)
    (s : SectorVec × UInt64 × UInt8) :
    (buildAtomicRegister i idx n s : AtomicRegisterState κ).readlist = ∅ ∧
      (buildAtomicRegister i idx n s : AtomicRegisterState κ).acklist = ∅ := ⟨rfl, rfl⟩

/-- The branches of `system_command`: command, state after it, effects. -/
inductive Handled (oc : Bool) (r : AtomicRegisterState κ) (h : SystemCommandHeader) :
    SystemRegisterCommandContent → AtomicRegisterState κ → List (Effect κ) → Prop
  | readProc : Handled oc r h .readProc r
      [.send ⟨⟨replyHeader r h, .value r.ts r.wr r.val⟩, h.processIdentifier⟩]
  | valueStale {t w d id} : r.opId = some id → (h.msgIdent ≠ id ∨ r.writePhase = true) →
      Handled oc r h (.value t w d) r []
  | valueCollect {t w d} : r.opId = some h.msgIdent → r.writePhase = false →
      ¬ (Majority r (collected r h.processIdentifier (t, w, d)).len ∧
        (r.reading || r.writing) = true) →
      Handled oc r h (.value t w d)
        { r with readlist := collected r h.processIdentifier (t, w, d) } []
  | valueRead {t w d e} : r.opId = some h.msgIdent → r.writePhase = false →
      Majority r (collected r h.processIdentifier (t, w, d)).len → r.reading = true →
      Highest (consulted r h.processIdentifier (t, w, d)) e →
      Handled oc r h (.value t w d)
        { r with readval := e.2.2, readlist := ∅, acklist := ∅, writePhase := true }
        [.broadcast ⟨replyHeader r h, .writeProc e.1 e.2.1 e.2.2⟩]
  | valueWrite {t w d e ts} : r.opId = some h.msgIdent → r.writePhase = false →
      Majority r (collected r h.processIdentifier (t, w, d)).len →
      r.reading = false → r.writing = true →
      Highest (consulted r h.processIdentifier (t, w, d)) e → addU64 oc e.1 1 = some ts →
      Handled oc r h (.value t w d)
        { r with readval := e.2.2, readlist := ∅, acklist := ∅, writePhase := true,
                 ts, wr := r.selfIdent, val := r.writeval }
        [.write r.sectorIdx (r.writeval, ts, r.selfIdent),
          .broadcast ⟨replyHeader r h, .writeProc ts r.selfIdent r.writeval⟩]
  | writeProcAdopt {t w d} : tag r.ts r.wr < tag t w →
      Handled oc r h (.writeProc t w d) { r with ts := t, wr := w, val := d }
        [.write r.sectorIdx (d, t, w), .send ⟨⟨replyHeader r h, .ack⟩, h.processIdentifier⟩]
  | writeProcKeep {t w d} : tag t w ≤ tag r.ts r.wr →
      Handled oc r h (.writeProc t w d) r [.send ⟨⟨replyHeader r h, .ack⟩, h.processIdentifier⟩]
  | ackStale {id} : r.opId = some id → (h.msgIdent ≠ id ∨ r.writePhase = false) →
      Handled oc r h .ack r []
  | ackCollect : r.opId = some h.msgIdent → r.writePhase = true →
      ¬ (Majority r (insert h.processIdentifier r.acklist).card ∧
        (r.reading || r.writing) = true) →
      Handled oc r h .ack { r with acklist := insert h.processIdentifier r.acklist } []
  | ackRead {f rid} : r.opId = some h.msgIdent → r.writePhase = true →
      Majority r (insert h.processIdentifier r.acklist).card → r.reading = true →
      r.callback = some f → r.rid = some rid →
      Handled oc r h .ack
        { r with acklist := ∅, writePhase := false, reading := false, callback := none }
        [.callback f ⟨rid, .read r.readval⟩]
  | ackWrite {f rid} : r.opId = some h.msgIdent → r.writePhase = true →
      Majority r (insert h.processIdentifier r.acklist).card → r.reading = false →
      r.writing = true → r.callback = some f → r.rid = some rid →
      Handled oc r h .ack
        { r with acklist := ∅, writePhase := false, writing := false, callback := none }
        [.callback f ⟨rid, .write⟩]
  | ackReadUnheard : r.opId = some h.msgIdent → r.writePhase = true →
      Majority r (insert h.processIdentifier r.acklist).card → r.reading = true →
      r.callback = none →
      Handled oc r h .ack { r with acklist := ∅, writePhase := false, reading := false } []
  | ackWriteUnheard : r.opId = some h.msgIdent → r.writePhase = true →
      Majority r (insert h.processIdentifier r.acklist).card → r.reading = false →
      r.writing = true → r.callback = none →
      Handled oc r h .ack { r with acklist := ∅, writePhase := false, writing := false } []

variable {oc : Bool} {order : IterOrder UInt8 ReadEntry} {r r' : AtomicRegisterState κ}
  {h : SystemCommandHeader} {effs : List (Effect κ)}

/-- What the end of the VALUE handler does with the entry it finds. -/
theorem startWritePhase_cases {sidx : SectorIdx} {id : Uuid}
    (hs : startWritePhase oc order r sidx id = some (r', effs)) :
    ∃ e, Highest (r.readlist.insert r.selfIdent (r.ts, r.wr, r.val)) e ∧
      (r.reading = true ∧
        r' = { r with readval := e.2.2, readlist := ∅, acklist := ∅, writePhase := true } ∧
        effs = [.broadcast ⟨⟨r.selfIdent, id, sidx⟩, .writeProc e.1 e.2.1 e.2.2⟩] ∨
      r.reading = false ∧ ∃ ts, addU64 oc e.1 1 = some ts ∧
        r' = { r with readval := e.2.2, readlist := ∅, acklist := ∅, writePhase := true,
                      ts, wr := r.selfIdent, val := r.writeval } ∧
        effs = [.write r.sectorIdx (r.writeval, ts, r.selfIdent),
          .broadcast ⟨⟨r.selfIdent, id, sidx⟩, .writeProc ts r.selfIdent r.writeval⟩]) := by
  unfold startWritePhase at hs
  obtain ⟨⟨k, maxts, rr, readval⟩, hmax, hs⟩ := Option.bind_eq_some_iff.mp hs
  refine ⟨(maxts, rr, readval), highest_of_maxBy hmax, ?_⟩
  cases hread : r.reading with
  | true =>
    simp only [hread, if_true, Option.some.injEq, Prod.mk.injEq] at hs
    exact Or.inl ⟨rfl, by rw [← hs.1], hs.2.symm⟩
  | false =>
    simp only [hread, Bool.false_eq_true, if_false] at hs
    obtain ⟨ts, hadd, hs⟩ := Option.bind_eq_some_iff.mp hs
    simp only [Option.some.injEq, Prod.mk.injEq] at hs
    exact Or.inr ⟨rfl, ts, hadd, by rw [← hs.1], hs.2.symm⟩

theorem onValue_handled {t : UInt64} {w : UInt8} {d : SectorVec}
    (hv : onValue oc order r h (t, w, d) = some (r', effs)) :
    Handled oc r h (.value t w d) r' effs := by
  unfold onValue at hv
  obtain ⟨id, hop, hv⟩ := Option.bind_eq_some_iff.mp hv
  by_cases hguard : h.msgIdent = id ∧ r.writePhase = false
  · rw [if_pos hguard] at hv
    obtain ⟨rfl, hphase⟩ := hguard
    dsimp only at hv
    split at hv
    · rename_i hquorum
      obtain ⟨e, hhigh, ⟨hread, rfl, rfl⟩ | ⟨hread, ts, hadd, rfl, rfl⟩⟩ := startWritePhase_cases hv
      · exact .valueRead hop hphase hquorum.1 hread hhigh
      · have hread : r.reading = false := hread
        have hwrite : r.writing = true := by simpa [hread] using hquorum.2
        exact .valueWrite hop hphase hquorum.1 hread hwrite hhigh hadd
    · rename_i hquorum
      obtain ⟨rfl, rfl⟩ := Prod.mk.inj (Option.some.inj hv)
      exact .valueCollect hop hphase hquorum
  · rw [if_neg hguard] at hv
    obtain ⟨rfl, rfl⟩ := Prod.mk.inj (Option.some.inj hv)
    refine .valueStale hop ?_
    by_cases hid : h.msgIdent = id
    · exact Or.inr (by simpa using fun hp => hguard ⟨hid, hp⟩)
    · exact Or.inl hid

theorem onWriteProc_handled {t : UInt64} {w : UInt8} {d : SectorVec}
    (hw : onWriteProc r h t w d = some (r', effs)) : Handled oc r h (.writeProc t w d) r' effs := by
  unfold onWriteProc at hw
  split at hw
  · rename_i hgt
    obtain ⟨rfl, rfl⟩ := Prod.mk.inj (Option.some.inj hw)
    exact .writeProcAdopt (tag_lt.mpr hgt)
  · rename_i hgt
    obtain ⟨rfl, rfl⟩ := Prod.mk.inj (Option.some.inj hw)
    exact .writeProcKeep (tag_le.mpr hgt)

theorem respond_cases {ret : OperationReturn} (hr : respond r ret = some (r', effs)) :
    (∃ f rid, r.callback = some f ∧ r.rid = some rid ∧ r' = { r with callback := none } ∧
      effs = [.callback f ⟨rid, ret⟩]) ∨ r.callback = none ∧ r' = r ∧ effs = [] := by
  unfold respond at hr
  split at hr
  · rename_i hcb
    obtain ⟨rfl, rfl⟩ := Prod.mk.inj (Option.some.inj hr)
    exact Or.inr ⟨hcb, rfl, rfl⟩
  · rename_i f hcb
    obtain ⟨rid, hrid, hr⟩ := Option.bind_eq_some_iff.mp hr
    obtain ⟨rfl, rfl⟩ := Prod.mk.inj (Option.some.inj hr)
    exact Or.inl ⟨f, rid, hcb, hrid, rfl, rfl⟩

theorem onAck_handled (ha : onAck r h = some (r', effs)) : Handled oc r h .ack r' effs := by
  unfold onAck at ha
  obtain ⟨id, hop, ha⟩ := Option.bind_eq_some_iff.mp ha
  by_cases hguard : h.msgIdent = id ∧ r.writePhase = true
  · rw [if_pos hguard] at ha
    obtain ⟨rfl, hphase⟩ := hguard
    dsimp only at ha
    split at ha
    · rename_i hquorum
      unfold completeOperation at ha
      dsimp only at ha
      split at ha
      · rename_i hread
        obtain ⟨f, rid, hcb, hrid, rfl, rfl⟩ | ⟨hcb, rfl, rfl⟩ := respond_cases ha
        · exact .ackRead hop hphase hquorum.1 hread hcb hrid
        · exact .ackReadUnheard hop hphase hquorum.1 hread hcb
      · rename_i hread
        have hread : r.reading = false := by simpa using hread
        have hwrite : r.writing = true := by simpa [hread] using hquorum.2
        obtain ⟨f, rid, hcb, hrid, rfl, rfl⟩ | ⟨hcb, rfl, rfl⟩ := respond_cases ha
        · exact .ackWrite hop hphase hquorum.1 hread hwrite hcb hrid
        · exact .ackWriteUnheard hop hphase hquorum.1 hread hwrite hcb
    · rename_i hquorum
      obtain ⟨rfl, rfl⟩ := Prod.mk.inj (Option.some.inj ha)
      exact .ackCollect hop hphase hquorum
  · rw [if_neg hguard] at ha
    obtain ⟨rfl, rfl⟩ := Prod.mk.inj (Option.some.inj ha)
    refine .ackStale hop ?_
    by_cases hid : h.msgIdent = id
    · exact Or.inr (by simpa using fun hp => hguard ⟨hid, hp⟩)
    · exact Or.inl hid

/-- A call of `system_command` that does not panic takes one of the branches. -/
theorem systemCommand_handled {cmd : SystemRegisterCommand}
    (hs : systemCommand oc order r cmd = some (r', effs)) :
    Handled oc r cmd.header cmd.content r' effs := by
  unfold systemCommand at hs
  cases hc : cmd.content with
  | readProc =>
    rw [hc] at hs
    obtain ⟨rfl, rfl⟩ := Prod.mk.inj (Option.some.inj hs)
    exact .readProc
  | value t w d => rw [hc] at hs; exact onValue_handled hs
  | writeProc t w d => rw [hc] at hs; exact onWriteProc_handled hs
  | ack => rw [hc] at hs; exact onAck_handled hs

/-! ### What the branches leave alone -/

variable {c : SystemRegisterCommandContent}

/-- `system_command` never touches the operation and request identifiers. -/
theorem Handled.ids (hh : Handled oc r h c r' effs) : r'.opId = r.opId ∧ r'.rid = r.rid := by
  cases hh <;> exact ⟨rfl, rfl⟩

/-- Nor who the register is, and what it is responsible for. -/
theorem Handled.identity (hh : Handled oc r h c r' effs) :
    r'.selfIdent = r.selfIdent ∧ r'.processesCount = r.processesCount ∧ r'.sectorIdx = r.sectorIdx := by
  cases hh <;> exact ⟨rfl, rfl, rfl⟩

/-- An entry comes into the readlist by a VALUE of the current operation only. -/
theorem Handled.readlist (hh : Handled oc r h c r' effs) {k : UInt8} {e : ReadEntry}
    (he : r'.readlist.lookup k = some e) : r.readlist.lookup k = some e ∨
      k = h.processIdentifier ∧ r.opId = some h.msgIdent ∧ c = .value e.1 e.2.1 e.2.2 := by
  cases hh with
  | valueCollect hop =>
    by_cases hk : k = h.processIdentifier
    · rw [hk, collected, AList.lookup_insert] at he
      obtain rfl := Option.some.inj he
      exact Or.inr ⟨hk, hop, rfl⟩
    · rw [collected, AList.lookup_insert_ne hk] at he
      exact Or.inl he
  | valueRead | valueWrite => simp at he
  | _ => exact Or.inl he

/-- A process comes into the acklist by an ACK of the current operation only. -/
theorem Handled.acklist (hh : Handled oc r h c r' effs) {q : UInt8} (hq : q ∈ r'.acklist) :
    q ∈ r.acklist ∨ q = h.processIdentifier ∧ r.opId = some h.msgIdent ∧ c = .ack := by
  cases hh with
  | ackCollect hop =>
    rcases Finset.mem_insert.mp hq with hq | hq
    · exact Or.inr ⟨hq, hop, rfl⟩
    · exact Or.inl hq
  | valueRead | valueWrite | ackRead | ackWrite | ackReadUnheard | ackWriteUnheard => simp at hq
  | _ => exact Or.inl hq

/-- A callback is invoked on an ACK of the current operation that completes its second quorum; a
    read returns `readval`. -/
theorem Handled.calls (hh : Handled oc r h c r' effs) {f : κ} {op : OperationSuccess}
    (hmem : .callback f op ∈ effs) : c = .ack ∧ r.opId = some h.msgIdent ∧ r.writePhase = true ∧
      Majority r (insert h.processIdentifier r.acklist).card ∧ r.callback = some f ∧
      (r.reading = true ∧ op.opReturn = .read r.readval ∨
        r.reading = false ∧ r.writing = true ∧ op.opReturn = .write) := by
  cases hh with
  | ackRead hop hphase hmaj hread hcb =>
    obtain ⟨rfl, rfl⟩ : f = _ ∧ op = _ := by simpa using hmem
    exact ⟨rfl, hop, hphase, hmaj, hcb, Or.inl ⟨hread, rfl⟩⟩
  | ackWrite hop hphase hmaj hread hwrite hcb =>
    obtain ⟨rfl, rfl⟩ : f = _ ∧ op = _ := by simpa using hmem
    exact ⟨rfl, hop, hphase, hmaj, hcb, Or.inr ⟨hread, hwrite, rfl⟩⟩
  | _ => simp at hmem

/-- The write phase ends by invoking the callback, if there is one. -/
theorem Handled.phase_falls (hh : Handled oc r h c r' effs) (hon : r.writePhase = true)
    (hoff : r'.writePhase = false) : r'.callback = none := by
  cases hh with
  | ackRead | ackWrite => rfl
  | ackReadUnheard _ _ _ _ hcb => exact hcb
  | ackWriteUnheard _ _ _ _ _ hcb => exact hcb
  | valueRead | valueWrite => simp at hoff
  | _ => simp_all

/-- The write phase begins by broadcasting a WRITE_PROC; a read will return what it writes back. -/
theorem Handled.phase_on (hh : Handled oc r h c r' effs) (hon : r'.writePhase = true) :
    (r.writePhase = true ∧ r'.reading = r.reading ∧ r'.readval = r.readval) ∨
      r.opId = some h.msgIdent ∧ ∃ t w d, .broadcast ⟨replyHeader r h, .writeProc t w d⟩ ∈ effs ∧
        (r'.reading = true → d = r'.readval) := by
  cases hh with
  | valueRead hop => exact Or.inr ⟨hop, _, _, _, List.mem_singleton_self _, fun _ => rfl⟩
  | valueWrite hop _ _ hread =>
    refine Or.inr ⟨hop, _, _, _, List.mem_cons_of_mem _ (List.mem_singleton_self _), fun hr => ?_⟩
    simp [hread] at hr
  | ackRead | ackWrite | ackReadUnheard | ackWriteUnheard => simp at hon
  | _ => exact Or.inl ⟨hon, rfl, rfl⟩

/-! ### Idle and working registers -/

/-- The flags of a register that works on client command `cmd`. -/
def WorksOn (r : AtomicRegisterState κ) (cmd : ClientRegisterCommand) : Prop :=
  match cmd.content with
  | .read => r.reading = true ∧ r.writing = false
  | .write data => r.reading = false ∧ r.writing = true ∧ r.writeval = data

/-- A register that works on nothing. -/
structure Idle (r : AtomicRegisterState κ) : Prop where
  reading : r.reading = false
  writing : r.writing = false
  writePhase : r.writePhase = false
  callback : r.callback = none

/-- What a register will return for a client command. -/
def returned (r : AtomicRegisterState κ) (cmd : ClientRegisterCommand) : OperationReturn :=
  match cmd.content with
  | .read => .read r.readval
  | .write _ => .write

variable {cmd : ClientRegisterCommand} {f : κ}

theorem WorksOn.not_both (hw : WorksOn r cmd) : r.reading = !r.writing := by
  unfold WorksOn at hw
  split at hw <;> simp [hw]

/-- A register in the middle of a write works on the write of its value. -/
theorem WorksOn.write (hw : WorksOn r cmd) (hread : r.reading = false) :
    cmd.content = .write r.writeval := by
  unfold WorksOn at hw
  split at hw
  · simp [hread] at hw
  · rename_i data hc
    rw [hc, hw.2.2]

/-- A register in the middle of a read works on a read. -/
theorem WorksOn.read (hw : WorksOn r cmd) (hread : r.reading = true) : cmd.content = .read := by
  unfold WorksOn at hw
  split at hw
  · assumption
  · simp [hread] at hw

theorem Idle.clientCommand (hidle : Idle r) (cmd : ClientRegisterCommand) (f : κ) (id : Uuid) :
    WorksOn (clientCommand r cmd f id).1 cmd ∧ (clientCommand r cmd f id).1.callback = some f := by
  have hread := hidle.reading
  have hwrite := hidle.writing
  cases hc : cmd.content <;> simp [Register.clientCommand, hc, WorksOn, hread, hwrite]

/-- An idle register stays idle, and invokes nothing. -/
theorem Handled.idle (hh : Handled oc r h c r' effs) (hidle : Idle r) :
    Idle r' ∧ ∀ f op, .callback f op ∉ effs := by
  obtain ⟨hread, hwrite, hphase, hcb⟩ := hidle
  cases hh with
  | valueRead _ _ _ hread' => simp [hread] at hread'
  | valueWrite _ _ _ _ hwrite' => simp [hwrite] at hwrite'
  | ackCollect _ hphase' | ackRead _ hphase' | ackWrite _ hphase' => simp [hphase] at hphase'
  | ackReadUnheard _ hphase' | ackWriteUnheard _ hphase' => simp [hphase] at hphase'
  | _ => exact ⟨⟨hread, hwrite, hphase, hcb⟩, by simp⟩

/-- A register that works on a client command goes on with it, or completes it: it is then idle, and has
    invoked the callback with what the command returns. -/
theorem Handled.working (hh : Handled oc r h c r' effs) (hw : WorksOn r cmd) (hcb : r.callback = some f) :
    (WorksOn r' cmd ∧ r'.callback = some f ∧ ∀ f op, .callback f op ∉ effs) ∨
      Idle r' ∧ ∃ rid, effs = [.callback f ⟨rid, returned r cmd⟩] := by
  cases hh with
  | @ackRead f' rid _ _ _ hread hcb' =>
    obtain rfl : f = f' := Option.some.inj (hcb.symm.trans hcb')
    have hwrite : r.writing = false := by simpa [hread] using hw.not_both
    exact Or.inr ⟨⟨rfl, hwrite, rfl, rfl⟩, rid, by simp [returned, hw.read hread]⟩
  | @ackWrite f' rid _ _ _ hread hwrite hcb' =>
    obtain rfl : f = f' := Option.some.inj (hcb.symm.trans hcb')
    exact Or.inr ⟨⟨hread, rfl, rfl, rfl⟩, rid, by simp [returned, hw.write hread]⟩
  | ackReadUnheard _ _ _ _ hcb' => simp [hcb] at hcb'
  | ackWriteUnheard _ _ _ _ _ hcb' => simp [hcb] at hcb'
  | _ => exact Or.inl ⟨hw, hcb, by simp⟩

end AtomicDisk.Register
