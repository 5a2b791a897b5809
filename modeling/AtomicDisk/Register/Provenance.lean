import AtomicDisk.Register.Maximum
import AtomicDisk.Register.Timestamps
import AtomicDisk.Schemes.Stream

/-! No invented data. Wherever data is held under a tag (register, storage, readlist, message), it is the
    zero sector of the beginning or the data of a write that a client has asked the process of that rank
    for, and so is what a read returns. The timestamp of the data of a write is not 0 as long as no
    timestamp has wrapped around: always in a build with overflow checks, and up to 2⁶⁴ writes without.

        zeros, (0, 0) ──┐
                        ├──▶ storage ──▶ register ──▶ VALUE ──▶ readlist ──▶ WRITE_PROC ──▶ storage …
        client's write ─┘                                            └──▶ read's callback -/

namespace AtomicDisk.Register
open Schemes

variable {p : Params} {P : System → Event → Prop} {tr l₁ l₂ : Trace} {w w' : System} {x : Step}
  {i wr : UInt8} {id u : Uuid} {t : UInt64} {d : SectorVec}

/-- A client has asked process `i` to write `d` to the sector. -/
def WriteInvoked (p : Params) (tr : Trace) (i : UInt8) (d : SectorVec) : Prop :=
  ∃ id h, h.sectorIdx = p.sectorIdx ∧ Started tr i id ⟨h, .write d⟩

theorem Started.sector (hr : SystemRun p P tr w) {cmd : ClientRegisterCommand} (h : Started tr i id cmd) :
    cmd.header.sectorIdx = p.sectorIdx := by
  obtain ⟨x, hx, cut, hev⟩ := h
  obtain ⟨l, -, -, hs⟩ := hr.entry hx
  cases step_stepped hs with
  | client hi =>
    obtain ⟨cut', hev'⟩ := hi.event
    rw [hev] at hev'
    cases hev'
    exact hi.sectorIdx
  | system hd => obtain ⟨order, cut', hev'⟩ := hd.event; rw [hev] at hev'; cases hev'
  | restart hq => exact absurd hev (hq.event _ _ _ _)

theorem Issues.invoked (hr : SystemRun p P tr w) (hx : x ∈ tr) (h : Issues p i id t d x) :
    WriteInvoked p tr i d := by
  obtain ⟨hdr, hst⟩ := h.started_of_mem hr hx
  exact ⟨id, hdr, hst.sector hr, hst⟩

/-- No timestamp has wrapped around: additions are checked, or there have not been enough writes. -/
def Unwrapped (p : Params) (tr : Trace) : Prop :=
  p.overflowChecks = true ∨ (goneOver p tr).length < 2 ^ 64

/-- Up to there, the timestamp that a write takes is not 0. -/
theorem Issues.timestamp_pos (hr : SystemRun p P tr w) (hx : x ∈ tr) (h : Issues p i id t d x)
    (hu : Unwrapped p tr) : 0 < t := by
  obtain ⟨l₁, l₂, htr⟩ := List.append_of_mem hx
  obtain ⟨hrun, -, hs⟩ := hr.split htr
  obtain ⟨t', wr', d', hheld, hadd⟩ := h.timestamp_le hs
  obtain ⟨id', hgo⟩ := h.goesOver hs
  have hinc : Incrementable p t' := by
    rcases hu with hu | hu
    · exact Or.inl hu
    · right
      have hle := held_le_goneOver hrun _ _ _ hheld
      rw [htr, goneOver, List.filterMap_append, List.filterMap_cons_some hgo, List.length_append,
        List.length_cons] at hu
      rw [goneOver] at hle
      omega
  have hsum := hinc.add hadd
  rw [UInt64.lt_iff_toNat_lt, UInt64.toNat_zero]
  omega

/-- CORRECT (reads return no invented data): in every run, with any order, duplication and loss of messages
    and crashes anywhere, what is passed to the callback of a read is the zero sector or the data of a write
    invoked before; and all that is held under a tag is the zero sector under `(0, 0)` or the data of a write
    invoked at the process of that rank, under a timestamp that is not 0 unless timestamps have wrapped. -/
theorem no_invented_data (hr : SystemRun p P tr w) :
    (∀ l₁ x l₂, tr = l₁ ++ x :: l₂ → ∀ f rid d, .callback f ⟨rid, .read d⟩ ∈ x.out →
      d = .zeros ∨ ∃ i, WriteInvoked p l₁ i d) ∧
    ∀ t wr d, Held w t wr d → (t = 0 ∧ wr = 0 ∧ d = .zeros) ∨
      WriteInvoked p tr wr d ∧ (Unwrapped p tr → 0 < t) := by
  constructor
  · rintro l₁ x l₂ rfl f rid d hmem
    obtain ⟨hrun, -, hs⟩ := hr.split rfl
    obtain ⟨i, r, cmd, t, wr, d', -, -, -, ⟨m, hm, -, -, hc⟩, -, hret⟩ := callback_backed hrun hs hmem
    obtain ⟨-, hret⟩ : cmd.content = .read ∧ OperationReturn.read d = .read d' := by simpa using hret
    obtain rfl : d = d' := by simpa using hret
    rcases held_sourced hrun (.writeProc hm hc) with ⟨-, -, hzero⟩ | ⟨y, hy, id, hiss⟩
    · exact Or.inl hzero
    · exact Or.inr ⟨wr, hiss.invoked hrun hy⟩
  · intro t wr d hh
    rcases held_sourced hr hh with hzero | ⟨y, hy, id, hiss⟩
    · exact Or.inl hzero
    · exact Or.inr ⟨hiss.invoked hr hy, hiss.timestamp_pos hr hy⟩

/-- What process 1 holds after process 2 has written, by the theorem about all runs. -/
theorem storedTwice_invoked : ∃ tr w, SystemRun threeProcesses (fun _ _ => True) tr w ∧
    (w.process 1).sector = (filled 2, 2, 2) ∧ WriteInvoked threeProcesses tr 2 (filled 2) := by
  obtain ⟨tr, w, hr, -, hsec, -⟩ := storedTwice_run
  rcases (no_invented_data hr).2 2 2 (filled 2) (.storage hsec) with ⟨hts, -⟩ | ⟨hinv, -⟩
  · exact absurd hts (by decide)
  · exact ⟨tr, w, hr.weaken fun _ _ _ => trivial, hsec, hinv⟩

/-! ### Wrapping around -/

section wrapping

/-- A system of one process, built without overflow checks. -/
def oneUnchecked : Params := ⟨1, 0, false⟩

/-- The run so far has left register `r` at the one process, with the client command `pend`. -/
structure Alone (tr : Trace) (w : System) (r : AtomicRegisterState Uuid) (pend : Option Uuid) : Prop where
  run : SystemRun oneUnchecked (fun _ _ => True) tr w
  register : (w.process 1).register = some r
  pending : (w.process 1).pending = pend

variable {r r' : AtomicRegisterState Uuid} {pend : Option Uuid} {effs : List (Effect Uuid)}

theorem one_mem_targets : (1 : UInt8) ∈ targets oneUnchecked.processesCount := by decide

theorem mem_sent_self {cmd : SystemRegisterCommand} (h : .broadcast cmd ∈ effs) :
    ⟨cmd, 1⟩ ∈ sent oneUnchecked effs :=
  mem_sent.mpr (Or.inr ⟨h, one_mem_targets⟩)

/-- The process handles a message that is there, to the end. -/
theorem Alone.deliver (h : Alone tr w r pend) {cmd : SystemRegisterCommand} (hm : ⟨cmd, 1⟩ ∈ w.network)
    (hcmd : systemCommand false .asIs r cmd = some (r', effs)) (pend' : Option Uuid)
    (hpend : (pend.filter fun f => !answered f effs) = pend') :
    ∃ tr' w', Alone tr' w' r' pend' ∧ w'.opIds = w.opIds ∧
      ∀ m ∈ sent oneUnchecked effs, m ∈ w'.network := by
  have hs : step oneUnchecked w (.systemCommand 1 cmd .asIs none) =
      some (perform oneUnchecked w 1 (some r') pend effs, effs) := by
    simp only [step, h.register, hm, if_true, h.pending]
    rw [show oneUnchecked.overflowChecks = false from rfl, hcmd]
    rfl
  refine ⟨_, _, ⟨h.run.snoc trivial hs, ?_, ?_⟩, rfl, fun m hm => List.mem_append_right _ hm⟩
  · simp [perform]
  · simp [perform, hpend]

/-- The process is given a client command. -/
theorem Alone.call (h : Alone tr w r none) (hu : u ∉ w.opIds) (c : ClientRegisterCommandContent) :
    ∃ tr' w', Alone tr' w' (clientCommand r ⟨⟨0, 0⟩, c⟩ u u).1 (some u) ∧ w'.opIds = u :: w.opIds ∧
      ⟨⟨⟨1, u, 0⟩, .readProc⟩, 1⟩ ∈ w'.network := by
  have hself := ((wellFormed h.run).live 1 r h.register).self
  have heffs := clientCommand_effects r ⟨⟨0, 0⟩, c⟩ u u
  have hs : step oneUnchecked w (.clientCommand 1 ⟨⟨0, 0⟩, c⟩ u none) =
      some ({ perform oneUnchecked w 1 (some (clientCommand r ⟨⟨0, 0⟩, c⟩ u u).1) (some u)
        (clientCommand r ⟨⟨0, 0⟩, c⟩ u u).2 with opIds := u :: w.opIds },
        (clientCommand r ⟨⟨0, 0⟩, c⟩ u u).2) := by
    have hguard : (1 : UInt8) ∈ targets oneUnchecked.processesCount ∧ (w.process 1).pending = none ∧
        u ∉ w.opIds ∧ (0 : SectorIdx) = oneUnchecked.sectorIdx :=
      ⟨one_mem_targets, h.pending, hu, rfl⟩
    simp only [step, h.register, hguard, not_false_eq_true, and_self, if_true]
    rfl
  refine ⟨_, _, ⟨h.run.snoc trivial hs, ?_, ?_⟩, rfl, List.mem_append_right _ ?_⟩
  · simp [perform]
  · simp [perform, heffs, answered]
  · rw [heffs, hself]
    exact mem_sent_self (List.mem_singleton_self _)

/-- The register of the one process, from the call of a write to its callback: what it makes of the
    messages it sends to itself. -/
theorem soleWrite (hidle : Idle r) (hself : r.selfIdent = 1) (hcount : r.processesCount = 1)
    (hsec : r.sectorIdx = 0) (u : Uuid) (d : SectorVec) : ∃ r₂ r₃,
      systemCommand false .asIs (clientCommand r ⟨⟨0, 0⟩, .write d⟩ u u).1 ⟨⟨1, u, 0⟩, .readProc⟩ =
        some ((clientCommand r ⟨⟨0, 0⟩, .write d⟩ u u).1,
          [.send ⟨⟨⟨1, u, 0⟩, .value r.ts r.wr r.val⟩, 1⟩]) ∧
      systemCommand false .asIs (clientCommand r ⟨⟨0, 0⟩, .write d⟩ u u).1
          ⟨⟨1, u, 0⟩, .value r.ts r.wr r.val⟩ =
        some (r₂, [.write 0 (d, r.ts + 1, 1), .broadcast ⟨⟨1, u, 0⟩, .writeProc (r.ts + 1) 1 d⟩]) ∧
      systemCommand false .asIs r₂ ⟨⟨1, u, 0⟩, .writeProc (r.ts + 1) 1 d⟩ =
        some (r₂, [.send ⟨⟨⟨1, u, 0⟩, .ack⟩, 1⟩]) ∧
      systemCommand false .asIs r₂ ⟨⟨1, u, 0⟩, .ack⟩ = some (r₃, [.callback u ⟨0, .write⟩]) ∧
      r₃.ts = r.ts + 1 ∧ r₃.wr = 1 ∧ r₃.val = d := by
  obtain ⟨hread, hwrite, hphase, hcb⟩ := hidle
  let r₂ : AtomicRegisterState Uuid :=
    { r with
      opId := some u, callback := some u, rid := some 0, readlist := ∅, acklist := ∅, writing := true
      writeval := d, readval := r.val, writePhase := true, ts := r.ts + 1, wr := 1, val := d }
  refine ⟨r₂, { r₂ with callback := none, writing := false, writePhase := false }, ?_, ?_, ?_, ?_, ?_⟩
  · simp [systemCommand, onReadProc, clientCommand, hself]
  · refine (systemCommand_selected (h := ⟨1, u, 0⟩) (v := (r.ts, r.wr, r.val)) ?_ ?_ ?_ ?_).trans ?_
    · rfl
    · exact hphase
    · simp only [Majority, clientCommand, hcount, collected]
      exact Nat.zero_lt_one
    · simp [clientCommand]
    · simp only [clientCommand, consulted, collected, hself]
      rw [show selected .asIs (AList.insert 1 (r.ts, r.wr, r.val) (AList.insert 1 (r.ts, r.wr, r.val) ∅)) =
        some (r.ts, r.wr, r.val) from rfl, Option.bind_some]
      simp [goOn, addU64, r₂, replyHeader, hread, hself, hsec]
  · simp [systemCommand, onWriteProc, r₂, hself]
  · simp [systemCommand, onAck, completeOperation, respond, r₂, hread, hcount]
  · simp only [r₂, and_self]

/-- A whole write of the one process: its timestamp goes up by one, or wraps. -/
theorem Alone.write (h : Alone tr w r none) (hu : u ∉ w.opIds) (d : SectorVec) :
    ∃ tr' w' r', Alone tr' w' r' none ∧ w'.opIds = u :: w.opIds ∧ r'.ts = r.ts + 1 ∧ r'.wr = 1 ∧
      r'.val = d := by
  have hlive := (wellFormed h.run).live 1 r h.register
  rw [h.pending] at hlive
  obtain ⟨r₂, r₃, hread, hvalue, hwrite, hack, hcopy⟩ :=
    soleWrite hlive.isIdle hlive.self hlive.count hlive.sectorIdx u d
  obtain ⟨tr₁, w₁, h₁, hids₁, hm₁⟩ := h.call hu (.write d)
  have hbusy : ∀ effs : List (Effect Uuid), (∀ f op, .callback f op ∉ effs) →
      ((some u).filter fun f => !answered f effs) = some u := fun effs => filter_unanswered (some u)
  obtain ⟨tr₂, w₂, h₂, hids₂, hm₂⟩ := h₁.deliver hm₁ hread (some u) (hbusy _ (by simp))
  obtain ⟨tr₃, w₃, h₃, hids₃, hm₃⟩ :=
    h₂.deliver (hm₂ _ (mem_sent.mpr (Or.inl (List.mem_singleton_self _)))) hvalue (some u)
      (hbusy _ (by simp))
  obtain ⟨tr₄, w₄, h₄, hids₄, hm₄⟩ :=
    h₃.deliver (hm₃ _ (mem_sent_self (by simp))) hwrite (some u) (hbusy _ (by simp))
  obtain ⟨tr₅, w₅, h₅, hids₅, -⟩ :=
    h₄.deliver (hm₄ _ (mem_sent.mpr (Or.inl (List.mem_singleton_self _)))) hack none (by simp [answered])
  exact ⟨tr₅, w₅, r₃, h₅, by rw [hids₅, hids₄, hids₃, hids₂, hids₁], hcopy⟩

/-- The operation id with the number `k`. -/
def nthUuid (k : ℕ) : Uuid := ⟨toBytes 16 k, toBytes_length ..⟩

theorem nthUuid_inj {j k : ℕ} (hj : j < 256 ^ 16) (hk : k < 256 ^ 16) (h : nthUuid j = nthUuid k) :
    j = k := by
  have hnum := congrArg (fun u => ofBytes u.bytes) h
  simp only [nthUuid] at hnum
  rwa [ofBytes_toBytes, ofBytes_toBytes, Nat.mod_eq_of_lt hj, Nat.mod_eq_of_lt hk] at hnum

/-- After `k + 1` writes the one process is idle, and has the timestamp `k + 1` as an `u64`. -/
theorem writesOfOne (d : SectorVec) (k : ℕ) (hk : k < 256 ^ 16) : ∃ tr w r, Alone tr w r none ∧
    (∀ u ∈ w.opIds, ∃ j ≤ k, u = nthUuid j) ∧ r.ts = UInt64.ofNat (k + 1) ∧ r.wr = 1 ∧ r.val = d := by
  induction k with
  | zero =>
    have hup : ((init oneUnchecked).process 1).register =
        some (buildAtomicRegister 1 0 1 (.zeros, 0, 0)) := by
      simp only [init, one_mem_targets, if_true]
      rfl
    have h0 : Alone [] (init oneUnchecked) (buildAtomicRegister 1 0 1 (.zeros, 0, 0)) none :=
      ⟨.nil, hup, rfl⟩
    obtain ⟨tr, w, r, h, hids, hts, hcopy⟩ := h0.write (u := nthUuid 0) (by simp [init]) d
    have hnum : ∀ u ∈ w.opIds, ∃ j ≤ 0, u = nthUuid j := by
      intro u hu
      exact ⟨0, le_refl _, by simpa [hids, init] using hu⟩
    have hone : r.ts = UInt64.ofNat (0 + 1) := by rw [hts]; rfl
    exact ⟨tr, w, r, h, hnum, hone, hcopy⟩
  | succ k ih =>
    obtain ⟨tr, w, r, h, hids, hts, -⟩ := ih (by omega)
    have hfresh : nthUuid (k + 1) ∉ w.opIds := by
      intro hmem
      obtain ⟨j, hj, hnum⟩ := hids _ hmem
      have heq := nthUuid_inj hk (by omega) hnum
      omega
    obtain ⟨tr', w', r', h', hids', hts', hcopy⟩ := h.write hfresh d
    have hnum : ∀ u ∈ w'.opIds, ∃ j ≤ k + 1, u = nthUuid j := by
      intro u hu
      rw [hids'] at hu
      rcases List.mem_cons.mp hu with rfl | hu
      · exact ⟨k + 1, le_refl _, rfl⟩
      · obtain ⟨j, hj, rfl⟩ := hids u hu
        exact ⟨j, by omega, rfl⟩
    have hnext : r'.ts = UInt64.ofNat (k + 1 + 1) := by rw [hts', hts, UInt64.ofNat_add (k + 1) 1]; rfl
    exact ⟨tr', w', r', h', hnum, hnext, hcopy⟩

/-- After 2⁶⁴ writes without overflow checks, the data of a write is held under timestamp 0. -/
theorem wrapped_timestamp : ¬ ∀ p tr w t wr d, SystemRun p (fun _ _ => True) tr w → Held w t wr d →
    (t = 0 ∧ wr = 0 ∧ d = .zeros) ∨ 0 < t ∧ WriteInvoked p tr wr d := by
  intro hall
  obtain ⟨tr, w, r, h, -, hts, hwr, -⟩ := writesOfOne (filled 1) (2 ^ 64 - 1) (by decide)
  have hzero : r.ts = 0 := by
    rw [hts]
    rfl
  rcases hall _ tr w _ _ _ h.run (.register h.register) with ⟨-, hwr', -⟩ | ⟨hpos, -⟩
  · simp [hwr] at hwr'
  · simp [hzero] at hpos

end wrapping

end AtomicDisk.Register
