import AtomicDisk.Register.Tags

/-! Timestamps are counted by writes. A timestamp grows in one place only, where a write goes over to
    its write phase and takes the timestamp after that of the entry it has found; an operation goes over
    once, whatever messages are delivered twice. So no timestamp anywhere exceeds the number of writes
    that have gone over, and `maxts + 1` fits into an `u64` as long as that number is below 2⁶⁴ - 1.

        writes gone over    0        1        2        3   …
        timestamps in use   0      ≤ 1      ≤ 2      ≤ 3   … -/

namespace AtomicDisk.Register
open Schemes

variable {p : Params} {P : System → Event → Prop} {tr : Trace} {w : System} {x : Step}
  {i wr : UInt8} {id : Uuid} {t : UInt64} {d : SectorVec}

/-- The write that goes over to its write phase in this step. -/
def goesOver (p : Params) (x : Step) : Option Uuid :=
  match x.event with
  | .systemCommand i cmd order _ => do
    let r ← (x.pre.process i).register
    let (r', _) ← systemCommand p.overflowChecks order r cmd
    if r.reading = false ∧ r.writePhase = false ∧ r'.writePhase = true then r.opId else none
  | _ => none

/-- The writes that have gone over to their write phase, in order. -/
def goneOver (p : Params) (tr : Trace) : List Uuid := tr.filterMap (goesOver p)

theorem goneOver_snoc (p : Params) (tr : Trace) (x : Step) :
    goneOver p (tr ++ [x]) = goneOver p tr ++ (goesOver p x).toList := by
  rw [goneOver, List.filterMap_append]
  cases h : goesOver p x <;> simp [goneOver, h]

/-! ### The step in which a write goes over -/

/-- The delivery of a message that does not make the register panic, with what the handler computes. -/
theorem delivery_of_step {cmd : SystemRegisterCommand} {order : IterOrder UInt8 ReadEntry}
    {cut : Option ℕ} {r r' : AtomicRegisterState Uuid} {effs : List (Effect Uuid)}
    (hs : step p x.pre x.event = some (x.post, x.out)) (hev : x.event = .systemCommand i cmd order cut)
    (hreg : (x.pre.process i).register = some r)
    (hcmd : systemCommand p.overflowChecks order r cmd = some (r', effs)) :
    Delivery p x i cmd r r' effs := by
  obtain ⟨w, e, es, w'⟩ := x
  obtain rfl : e = _ := hev
  dsimp only at hreg hs
  simp only [step, hreg, hcmd] at hs
  split at hs
  · rename_i hnet
    obtain ⟨rfl, rfl⟩ := Prod.mk.inj (Option.some.inj hs)
    exact ⟨⟨order, cut, rfl⟩, hreg, hnet, systemCommand_handled hcmd,
      ⟨_, conclude_concluded .., moved_of_perform rfl rfl rfl⟩, rfl⟩
  · simp at hs

/-- A handler that begins the write phase belongs to an operation in progress. -/
theorem Handled.phase_begins {oc : Bool} {r r' : AtomicRegisterState Uuid} {h : SystemCommandHeader}
    {c : SystemRegisterCommandContent} {effs : List (Effect Uuid)} (hh : Handled oc r h c r' effs)
    (hoff : r.writePhase = false) (hon : r'.writePhase = true) : (r.reading || r.writing) = true := by
  cases hh with
  | valueRead _ _ _ hread => simp [hread]
  | valueWrite _ _ _ _ hwrite => simp [hwrite]
  | ackRead | ackWrite | ackReadUnheard | ackWriteUnheard => simp at hon
  | _ => simp_all

/-- A VALUE handler that stores begins the write phase of a write. -/
theorem Handled.own_store {oc : Bool} {r r' : AtomicRegisterState Uuid} {h : SystemCommandHeader}
    {ts : UInt64} {rank : UInt8} {v : SectorVec} {effs : List (Effect Uuid)}
    (hh : Handled oc r h (.value ts rank v) r' effs) {idx : SectorIdx} {s : SectorVec × UInt64 × UInt8}
    (hmem : .write idx s ∈ effs) : r.reading = false ∧ r.writePhase = false ∧ r'.writePhase = true ∧
      r.opId = some h.msgIdent := by
  cases hh with
  | valueWrite hop hphase _ hread => exact ⟨hread, hphase, rfl, hop⟩
  | valueStale | valueCollect | valueRead => simp at hmem

/-- In this step write `id`, which process `i` has started, leaves its first phase, and enters the second
    if its process does not crash in the step. -/
structure PhaseChange (p : Params) (tr : Trace) (i : UInt8) (id : Uuid) (x : Step) : Prop where
  pending : (x.pre.process i).pending = some id
  first : ∃ r, (x.pre.process i).register = some r ∧ r.writePhase = false
  second : ∀ r, (x.post.process i).register = some r → r.writePhase = true
  started : ∃ h d, Started tr i id ⟨h, .write d⟩

theorem goesOver_spec (hr : SystemRun p P tr x.pre) (hs : step p x.pre x.event = some (x.post, x.out))
    (h : goesOver p x = some id) : ∃ i, PhaseChange p tr i id x := by
  unfold goesOver at h
  cases hev : x.event with
  | systemCommand i cmd order cut =>
    simp only [hev, Option.bind_eq_bind, Option.bind_eq_some_iff] at h
    obtain ⟨r, hreg, ⟨r', effs⟩, hcmd, h⟩ := h
    split at h
    · rename_i hphase
      obtain ⟨hread, hoff, hon⟩ := hphase
      have hd := delivery_of_step hs hev hreg hcmd
      obtain ⟨id', ⟨hdr, content⟩, hpend, hop, -, hst, hworks⟩ :=
        ((wellFormed hr).live i r hreg).working (hd.handled.phase_begins hoff hon)
      obtain rfl : id = id' := Option.some.inj (h.symm.trans hop)
      obtain rfl : content = .write r.writeval := hworks.write hread
      exact ⟨i, hpend, ⟨r, hreg, hoff⟩, fun r'' hr'' => (hd.up hr'').1 ▸ hon, hdr, _, hst⟩
    · simp at h
  | clientCommand | crash | build => simp [hev] at h

/-! ### A write goes over once -/

/-- Who has gone over so far: nobody twice, nobody who has not started, and nobody who still collects
    VALUE messages. -/
structure Counted (p : Params) (tr : Trace) (w : System) : Prop where
  once : (goneOver p tr).Nodup
  started : ∀ id ∈ goneOver p tr, ∃ i h d, Started tr i id ⟨h, .write d⟩
  first : ∀ i id r, (w.process i).pending = some id → (w.process i).register = some r →
    r.writePhase = false → id ∉ goneOver p tr

theorem mem_goneOver_snoc : id ∈ goneOver p (tr ++ [x]) ↔ id ∈ goneOver p tr ∨ goesOver p x = some id := by
  rw [goneOver_snoc, List.mem_append, Option.mem_toList]

/-- A write that is in its first phase after a step has not gone over in it. -/
theorem PhaseChange.not_first (h : PhaseChange p tr i id x)
    (hr' : SystemRun p P (tr ++ [x]) x.post) {j : UInt8} {r : AtomicRegisterState Uuid}
    (hpend : (x.post.process j).pending = some id) (hreg : (x.post.process j).register = some r) :
    r.writePhase = true := by
  obtain ⟨hdr, d, hst⟩ := h.started
  obtain ⟨-, -, cmd, hst', -⟩ := ((wellFormed hr').live j r hreg).busy id hpend
  obtain ⟨rfl, -⟩ := (hst.append [x]).unique hr' hst'
  exact h.second r hreg

/-- After a step, a write that still collects VALUE messages has not gone over before it. -/
theorem Counted.first_next (h : Counted p tr x.pre) (hr : SystemRun p P tr x.pre)
    (hr' : SystemRun p P (tr ++ [x]) x.post) (hs : step p x.pre x.event = some (x.post, x.out))
    {r : AtomicRegisterState Uuid} (hpend : (x.post.process i).pending = some id)
    (hreg : (x.post.process i).register = some r) (hphase : r.writePhase = false) :
    id ∉ goneOver p tr := by
  rcases first_phase_before hr' hs hpend hreg hphase with ⟨r₀, hpre, hreg₀, hoff⟩ | hfresh
  · exact h.first i id r₀ hpre hreg₀ hoff
  · -- an operation that starts has drawn a new id
    intro hmem
    obtain ⟨j, hdr, d, y, hy, cut, hev⟩ := h.started id hmem
    exact hfresh ((opIds_iff hr id).mpr ⟨y, hy, starts_iff.mpr ⟨_, _, _, hev⟩⟩)

theorem counted (hr : SystemRun p P tr w) : Counted p tr w := by
  refine hr.invariant ?_ ?_
  · exact ⟨by simp [goneOver], by simp [goneOver], by simp [goneOver]⟩
  · intro tr x hr ih hP hs
    have hr' : SystemRun p P (tr ++ [x]) x.post := hr.snoc hP hs
    refine ⟨?_, fun id hid => ?_, fun i id r hpend hreg hphase hid => ?_⟩
    · rw [goneOver_snoc]
      cases hgo : goesOver p x with
      | none => simpa using ih.once
      | some id =>
        obtain ⟨i, hover⟩ := goesOver_spec hr hs hgo
        obtain ⟨r, hreg, hphase⟩ := hover.first
        have hnot := ih.first i id r hover.pending hreg hphase
        rw [Option.toList_some, List.nodup_append]
        refine ⟨ih.once, List.nodup_singleton _, fun a ha b hb hab => hnot ?_⟩
        rw [← List.mem_singleton.mp hb, ← hab]
        exact ha
    · rcases mem_goneOver_snoc.mp hid with hid | hid
      · obtain ⟨i, h, d, hst⟩ := ih.started id hid
        exact ⟨i, h, d, hst.append [x]⟩
      · obtain ⟨i, hover⟩ := goesOver_spec hr hs hid
        obtain ⟨h, d, hst⟩ := hover.started
        exact ⟨i, h, d, hst.append [x]⟩
    · rcases mem_goneOver_snoc.mp hid with hid | hid
      · exact ih.first_next hr hr' hs hpend hreg hphase hid
      · obtain ⟨j, hover⟩ := goesOver_spec hr hs hid
        simp [hover.not_first hr' hpend hreg] at hphase

/-! ### Timestamps -/

/-- A step that issues is one in which a write goes over. -/
theorem Issues.goesOver (hs : step p x.pre x.event = some (x.post, x.out)) (h : Issues p i id t d x) :
    ∃ id', Register.goesOver p x = some id' := by
  obtain ⟨⟨cmd, order, cut, hev, -, ⟨ts, rank, v, hc⟩, -⟩, hmem⟩ := h
  rw [hev] at hs
  cases hreg : (x.pre.process i).register with
  | none => simp [step, hreg] at hs
  | some r =>
    cases hcmd : systemCommand p.overflowChecks order r cmd with
    | none =>
      -- a handler that panics has no effects
      simp only [step, hreg, hcmd] at hs
      split at hs
      · obtain ⟨-, hout⟩ := Prod.mk.inj (Option.some.inj hs)
        simp [← hout] at hmem
      · simp at hs
    | some y =>
      obtain ⟨r', effs⟩ := y
      have hd := delivery_of_step (hev ▸ hs) hev hreg hcmd
      have hh := hd.handled
      rw [hc] at hh
      have hflags := hh.own_store (hd.effects.subset hmem)
      exact ⟨cmd.header.msgIdent, by simp [Register.goesOver, hev, hreg, hcmd, hflags]⟩

/-- What is issued has at most the timestamp after one that is there already. -/
theorem Issues.timestamp_le (hs : step p x.pre x.event = some (x.post, x.out)) (h : Issues p i id t d x) :
    ∃ t' wr' d', Held x.pre t' wr' d' ∧ addU64 p.overflowChecks t' 1 = some t := by
  obtain ⟨cmd, v, e, r, r', effs, hpk⟩ := h.1.picked hs
  obtain ⟨⟨k, hk⟩, -⟩ := hpk.highest
  rcases hpk.choice with ⟨hread, -⟩ | ⟨-, -, hadd, -, -⟩
  · exact absurd (hpk.delivery.effects.subset h.2) (hpk.readOnly hread _ _)
  · exact ⟨e.1, e.2.1, e.2.2, held_of_consulted hpk.delivery.register hpk.delivery.delivered hpk.value hk,
      hadd⟩

theorem addU64_le {oc : Bool} {a b c : UInt64} (h : addU64 oc a b = some c) :
    c.toNat ≤ a.toNat + b.toNat := by
  rw [addU64] at h
  split at h
  · simp at h
  · obtain rfl := Option.some.inj h
    rw [UInt64.toNat_add]
    exact Nat.mod_le _ _

/-- No timestamp exceeds the number of writes that have gone over. -/
theorem held_le_goneOver (hr : SystemRun p P tr w) :
    ∀ t wr d, Held w t wr d → t.toNat ≤ (goneOver p tr).length := by
  refine hr.invariant (I := fun tr w => ∀ t wr d, Held w t wr d → t.toNat ≤ (goneOver p tr).length) ?_ ?_
  · intro t wr d hh
    have h0 : SystemRun p P [] (init p) := .nil
    rcases held_sourced h0 hh with ⟨rfl, -, -⟩ | ⟨x, hx, -⟩
    · simp
    · simp at hx
  · intro tr x hr ih _ hs t wr d hh
    rw [goneOver_snoc, List.length_append]
    rcases held_after hr hs hh with hold | ⟨id, hiss⟩
    · exact (ih t wr d hold).trans (Nat.le_add_right _ _)
    · obtain ⟨t', wr', d', hheld, hadd⟩ := hiss.timestamp_le hs
      have hgo : (goesOver p x).toList.length = 1 := by
        obtain ⟨id', hid'⟩ := hiss.goesOver hs
        rw [hid']; rfl
      have hle := addU64_le hadd
      have hprev := ih t' wr' d' hheld
      rw [UInt64.toNat_one] at hle
      omega

/-- CORRECT (timestamps are counted by writes): in every run, every timestamp that is held in a register,
    in storage, in a readlist or in a message is at most the number of writes that have gone over to their
    write phase, no write goes over twice, and below 2⁶⁴ - 1 such writes the timestamp of every entry that
    a VALUE makes a register compare can be incremented. -/
theorem timestamps_counted (hr : SystemRun p P tr w) :
    (∀ t wr d, Held w t wr d → t.toNat ≤ (goneOver p tr).length) ∧
    ((goneOver p tr).Nodup ∧ ∀ id ∈ goneOver p tr, ∃ i h d, Started tr i id ⟨h, .write d⟩) ∧
    ((goneOver p tr).length < 2 ^ 64 - 1 → ∀ i r cmd v k e, (w.process i).register = some r →
      ⟨cmd, i⟩ ∈ w.network → cmd.content = .value v.1 v.2.1 v.2.2 →
      (consulted r cmd.header.processIdentifier v).lookup k = some e →
      ∃ ts, addU64 p.overflowChecks e.1 1 = some ts ∧ ts.toNat = e.1.toNat + 1) := by
  refine ⟨held_le_goneOver hr, ⟨(counted hr).once, (counted hr).started⟩, ?_⟩
  intro hfew i r cmd v k e hreg hdel hc hk
  have hle := held_le_goneOver hr _ _ _ (held_of_consulted hreg hdel hc hk)
  exact addU64_next _ (by omega)

section run

-- sectors of 4096 bytes are compared byte by byte when a concrete run is replayed
set_option maxRecDepth 40000

/-- Two of three processes write: timestamp 2 is held, and two writes have gone over. -/
theorem timestamps_counted_twice : ∃ tr w, SystemRun threeProcesses (fun _ _ => True) tr w ∧
    Held w 2 2 (filled 2) ∧ goneOver threeProcesses tr = [uuid 1, uuid 2] ∧
    ∀ t wr d, Held w t wr d → t.toNat ≤ 2 := by
  obtain ⟨tr, w, hr, hobs⟩ := run_of_events threeProcesses (fun _ _ => True) storedTwice
    (fun tr w => decide (goneOver threeProcesses tr = [uuid 1, uuid 2]) &&
      decide ((w.process 1).sector = (filled 2, 2, 2))) (by decide +kernel)
  rw [Bool.and_eq_true, decide_eq_true_eq, decide_eq_true_eq] at hobs
  have hle := (timestamps_counted hr).1
  rw [hobs.1] at hle
  exact ⟨tr, w, hr, .storage hobs.2, hobs.1, hle⟩

end run

end AtomicDisk.Register
