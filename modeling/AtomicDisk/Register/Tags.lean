import AtomicDisk.Register.Majorities

/-! Tags. A writer takes the timestamp after that of the entry of highest *rank*, so nothing makes the
    new tag larger than its own: with ranks 1 and 2, the entry (1, 2) hides the register's own (2, 1) and
    the next write of process 1 is stored under (2, 1) again. What does hold is relative to a condition
    on the readlists met (`NewTagLarger`): where it holds at every quorum, stored tags strictly increase
    at every process, and a tag stands for the same data everywhere in the system.

    A call of `sectors_manager.write` that a crash interrupts before the file has been renamed leaves nothing, and
    the process may call again with the same tag once it has recovered. So the tags of all calls increase only
    in runs in which no call is interrupted like this (`WritesTakeEffect`). -/

namespace AtomicDisk.Register
open Schemes

/-! ### Conditions on the readlists met -/

/-- The entry in a VALUE. -/
def valueOf : SystemRegisterCommandContent → Option ReadEntry
  | .value t wr d => some (t, wr, d)
  | _ => none

/-- A condition on an entry of a readlist, of which a register takes the maximum. -/
abbrev EntryCondition := AtomicRegisterState Uuid → HashMap UInt8 ReadEntry → ReadEntry → Prop

/-- If the command is a VALUE that completes the first quorum of an operation, `C` holds of every entry of
    highest rank in the readlist that the maximum is taken of. -/
def Meets (C : EntryCondition) (r : AtomicRegisterState Uuid) (cmd : SystemRegisterCommand) : Prop :=
  ∀ v ∈ valueOf cmd.content, Completes r cmd.header v →
    ∀ e ∈ (consulted r cmd.header.processIdentifier v).entries,
      (∀ e' ∈ (consulted r cmd.header.processIdentifier v).entries, e'.2.2.1 ≤ e.2.2.1) →
      C r (consulted r cmd.header.processIdentifier v) e.2

/-- The command that is handled meets `C`. -/
def AtQuorum (C : EntryCondition) (w : System) : Event → Prop
  | .systemCommand i cmd _ _ => ∀ r ∈ (w.process i).register, Meets C r cmd
  | _ => True

/-- The timestamp `t` can be incremented without wrapping around. -/
def Incrementable (p : Params) (t : UInt64) : Prop :=
  p.overflowChecks = true ∨ t.toNat + 1 < 2 ^ 64

/-- For a write, the timestamp after that of the entry, with the register's rank, is a larger tag than
    the register's own. -/
def TagGrows (p : Params) : EntryCondition := fun r _ e =>
  r.reading = false → Incrementable p e.1 ∧
    (r.ts.toNat < e.1.toNat + 1 ∨ r.ts.toNat = e.1.toNat + 1 ∧ r.wr.toNat < r.selfIdent.toNat)

def NewTagLarger (p : Params) : System → Event → Prop := AtQuorum (TagGrows p)

/-- For a write, the entry has the largest timestamp in the readlist, and it can be incremented. -/
def LatestForWrites (p : Params) : System → Event → Prop :=
  AtQuorum fun r m e => r.reading = false → Incrementable p e.1 ∧ ∀ e' ∈ m.entries, e'.2.1.toNat ≤ e.1.toNat

instance (r : AtomicRegisterState Uuid) (h : SystemCommandHeader) (v : ReadEntry) :
    Decidable (Completes r h v) :=
  decidable_of_iff (r.opId = some h.msgIdent ∧ r.writePhase = false ∧
      r.processesCount.toNat / 2 < (collected r h.processIdentifier v).len ∧
      (r.reading || r.writing) = true)
    ⟨fun ⟨a, b, c, d⟩ => ⟨a, b, c, d⟩, fun ⟨a, b, c, d⟩ => ⟨a, b, c, d⟩⟩

instance (C : EntryCondition) [∀ r m e, Decidable (C r m e)] (r : AtomicRegisterState Uuid)
    (cmd : SystemRegisterCommand) : Decidable (Meets C r cmd) := by
  dsimp only [Meets]; infer_instance

instance (C : EntryCondition) [∀ r m e, Decidable (C r m e)] (w : System) (e : Event) :
    Decidable (AtQuorum C w e) :=
  match e with
  | .systemCommand i cmd _ _ => by dsimp only [AtQuorum]; infer_instance
  | .clientCommand .. | .crash _ | .build _ => isTrue trivial

instance (p : Params) (t : UInt64) : Decidable (Incrementable p t) :=
  inferInstanceAs (Decidable (_ ∨ _))

instance (p : Params) (r : AtomicRegisterState Uuid) (m : HashMap UInt8 ReadEntry) (e : ReadEntry) :
    Decidable (TagGrows p r m e) := by
  dsimp only [TagGrows]; infer_instance

instance (p : Params) (w : System) (e : Event) : Decidable (NewTagLarger p w e) :=
  inferInstanceAs (Decidable (AtQuorum _ w e))

instance (p : Params) (w : System) (e : Event) : Decidable (LatestForWrites p w e) :=
  inferInstanceAs (Decidable (AtQuorum _ w e))

variable {p : Params} {P : System → Event → Prop} {tr l₁ l₂ : Trace} {w w₁ : System} {x : Step}
  {i wr : UInt8} {id : Uuid} {t : UInt64} {d d' : SectorVec} {r r' : AtomicRegisterState Uuid}

/-- The readlist that is consulted has the register's own entry. -/
theorem Meets.imp {C D : EntryCondition} {cmd : SystemRegisterCommand} (h : Meets C r cmd)
    (hCD : ∀ m e, m.lookup r.selfIdent = some (r.ts, r.wr, r.val) → C r m e → D r m e) : Meets D r cmd :=
  fun v hv hcomp e he hmax => hCD _ e.2 (AList.lookup_insert _) (h v hv hcomp e he hmax)

theorem AtQuorum.imp {C D : EntryCondition} {e : Event} (h : AtQuorum C w e)
    (hCD : ∀ (r : AtomicRegisterState Uuid) m e,
      m.lookup r.selfIdent = some (r.ts, r.wr, r.val) → C r m e → D r m e) : AtQuorum D w e := by
  cases e with
  | systemCommand i cmd order cut => exact fun r hr => (h r hr).imp (hCD r)
  | _ => trivial

/-- The latest entry is at least as new as the register's own. -/
theorem tagGrows_of_latest {m : HashMap UInt8 ReadEntry} {e : ReadEntry}
    (hown : m.lookup r.selfIdent = some (r.ts, r.wr, r.val)) (hinc : Incrementable p e.1)
    (hlatest : ∀ e' ∈ m.entries, e'.2.1.toNat ≤ e.1.toNat) : TagGrows p r m e := by
  intro _
  have hle := hlatest ⟨r.selfIdent, _⟩ (AList.mem_lookup_iff.mp hown)
  exact ⟨hinc, Or.inl (Nat.lt_succ_of_le hle)⟩

theorem LatestForWrites.newTagLarger {e : Event} (h : LatestForWrites p w e) : NewTagLarger p w e := by
  refine AtQuorum.imp h fun r m e hown hlatest hread => ?_
  obtain ⟨hinc, hlatest⟩ := hlatest hread
  exact tagGrows_of_latest hown hinc hlatest hread

/-- At the step where an operation picks, the condition holds of the entry found. -/
theorem AtQuorum.picked {C : EntryCondition} (hP : AtQuorum C x.pre x.event) {cmd : SystemRegisterCommand}
    {v e : ReadEntry} {effs : List (Effect Uuid)} (h : Picked p i id t wr d x cmd v e r r' effs) :
    C r (consulted r cmd.header.processIdentifier v) e := by
  obtain ⟨order, cut, hev⟩ := h.delivery.event
  obtain ⟨⟨k, hk⟩, hmax⟩ := h.highest
  rw [hev] at hP
  refine hP r h.delivery.register v (by rw [h.value]; rfl) h.completes ⟨k, e⟩
    (AList.mem_lookup_iff.mp hk) fun e' he' => ?_
  exact hmax e'.1 e'.2 (AList.mem_lookup_iff.mpr he')

/-- Where a timestamp can be incremented, the sum is the next number. -/
theorem Incrementable.add {a b : UInt64} (h : Incrementable p a)
    (hadd : addU64 p.overflowChecks a 1 = some b) : b.toNat = a.toNat + 1 := by
  have hb := UInt64.toNat_lt a
  simp only [addU64] at hadd
  split at hadd
  · simp at hadd
  · rename_i hover
    obtain rfl := Option.some.inj hadd
    have hfit : a.toNat + 1 < 2 ^ 64 := by
      rcases h with h | h
      · simp only [h, true_and, UInt64.toNat_one] at hover
        omega
      · exact h
    rw [UInt64.toNat_add, UInt64.toNat_one]
    omega

/-! ### Stored tags increase -/

/-- The process an event is about. -/
def Event.process : Event → UInt8
  | .clientCommand i _ _ _ => i
  | .systemCommand i _ _ _ => i
  | .crash i => i
  | .build i => i

/-- The calls of `sectors_manager.write` among effects. -/
def writesIn (es : List (Effect Uuid)) : List (SectorVec × UInt64 × UInt8) :=
  es.filterMap fun
    | .write _ s => some s
    | _ => none

/-- The effect that a crash in a handler interrupts: it has begun, and does not take place. -/
def interrupted (p : Params) (w : System) : Event → Option (Effect Uuid)
  | .clientCommand i cmd uuid (some k) => do
    let r ← (w.process i).register
    (clientCommand r cmd uuid uuid).2[k]?
  | .systemCommand i cmd order (some k) => do
    let r ← (w.process i).register
    let h ← systemCommand p.overflowChecks order r cmd
    h.2[k]?
  | _ => none

/-- The effects that have begun in a step. -/
def begunEffects (p : Params) (x : Step) : List (Effect Uuid) := x.out ++ (interrupted p x.pre x.event).toList

/-- The calls of `sectors_manager.write` by process `i`, in order, also those that a crash has interrupted. -/
def writes (p : Params) (i : UInt8) (tr : Trace) : List (SectorVec × UInt64 × UInt8) :=
  tr.flatMap fun x => if x.event.process = i then writesIn (begunEffects p x) else []

/-- A crash interrupts no call of `sectors_manager.write` before it has taken effect. -/
def WritesTakeEffect (p : Params) (w : System) (e : Event) : Prop :=
  writesIn (interrupted p w e).toList = []

instance (p : Params) (w : System) (e : Event) : Decidable (WritesTakeEffect p w e) :=
  inferInstanceAs (Decidable (_ = _))

theorem WritesTakeEffect.writesIn_begun (h : WritesTakeEffect p x.pre x.event) :
    writesIn (begunEffects p x) = writesIn x.out := by
  have hnone : (interrupted p x.pre x.event).toList.filterMap _ = [] := h
  rw [begunEffects, writesIn, List.filterMap_append, hnone, List.append_nil]
  rfl

/-- A store comes with a tag that is larger than the stored one. -/
theorem store_raises (hr : SystemRun p P tr x.pre) (hP : NewTagLarger p x.pre x.event)
    (hs : step p x.pre x.event = some (x.post, x.out)) {cmd : SystemRegisterCommand}
    {effs : List (Effect Uuid)} (hd : Delivery p x i cmd r r' effs) {idx : SectorIdx}
    {s : SectorVec × UInt64 × UInt8} (hmem : .write idx s ∈ x.out) :
    sectorTag (x.pre.process i).sector < sectorTag s := by
  have hwf := wellFormed hr
  rw [(hwf.live i r hd.register).durable]
  rcases (hd.handled.stores (hd.effects.subset hmem)).2 with ⟨-, hlt⟩ | ⟨hval, -⟩
  · exact hlt
  · obtain ⟨hiss, hself⟩ := issues_of_store hwf hd hval hmem
    obtain ⟨cmd', v, e, r₀, r₀', effs', hpk⟩ := hiss.1.picked hs
    obtain rfl : r = r₀ := Option.some.inj (hd.register.symm.trans hpk.delivery.register)
    rcases hpk.choice with ⟨hread, -⟩ | ⟨hread, -, hadd, hwr, -⟩
    · exact absurd (hpk.delivery.effects.subset hmem) (hpk.readOnly hread _ _)
    · obtain ⟨hinc, hlt⟩ := AtQuorum.picked hP hpk hread
      obtain ⟨data, ts, rank⟩ := s
      obtain rfl : rank = i := hself
      rw [sectorTag_mk, sectorTag_mk, tag_lt_toNat, hinc.add hadd, hwr]
      exact hlt

theorem mem_writesIn {es : List (Effect Uuid)} {s : SectorVec × UInt64 × UInt8} :
    s ∈ writesIn es ↔ ∃ idx, .write idx s ∈ es := by
  simp only [writesIn, List.mem_filterMap]
  constructor
  · rintro ⟨e, he, hs⟩
    cases e with
    | write idx s' => obtain rfl := Option.some.inj hs; exact ⟨idx, he⟩
    | _ => simp at hs
  · rintro ⟨idx, he⟩
    exact ⟨_, he, rfl⟩

/-- A handler calls `sectors_manager.write` at most once. -/
theorem Handled.writesIn_length {oc : Bool} {h : SystemCommandHeader}
    {c : SystemRegisterCommandContent} {effs : List (Effect Uuid)} (hh : Handled oc r h c r' effs) :
    (writesIn effs).length ≤ 1 := by
  cases hh <;> simp [writesIn]

/-- The storage holds what was written last. -/
theorem stored_eq (p : Params) : ∀ (es : List (Effect Uuid)) (s : SectorVec × UInt64 × UInt8),
    (∀ idx s', .write idx s' ∈ es → idx = p.sectorIdx) →
    stored p s es = (writesIn es).foldl (fun _ s' => s') s
  | [], s, _ => rfl
  | .write idx s' :: es, s, h => by
    obtain rfl := h idx s' (List.mem_cons_self ..)
    have ih := stored_eq p es s' fun idx s hmem => h idx s (List.mem_cons_of_mem _ hmem)
    simpa [stored, writesIn] using ih
  | .send _ :: es, s, h | .broadcast _ :: es, s, h | .callback _ _ :: es, s, h =>
    stored_eq p es s fun idx s hmem => h idx s (List.mem_cons_of_mem _ hmem)

/-- Of a step that calls `sectors_manager.write`: it is a delivery, the call is its only one, for the
    sector of the system, and the storage then holds what was passed. -/
theorem writesIn_step (hr : SystemRun p P tr x.pre)
    (hs : step p x.pre x.event = some (x.post, x.out)) : writesIn x.out = [] ∨
      ∃ cmd r r' effs s, Delivery p x x.event.process cmd r r' effs ∧ writesIn x.out = [s] ∧
        (x.post.process x.event.process).sector = s := by
  cases step_stepped hs with
  | client hi =>
    left
    rcases List.prefix_cons_iff.mp hi.effects with hout | ⟨l, hout, hl⟩
    · rw [hout]; rfl
    · rw [hout, List.prefix_nil.mp hl]; rfl
  | restart hq => left; rw [hq.out]; rfl
  | @system i cmd r r' effs hd =>
    obtain ⟨order, cut, hev⟩ := hd.event
    have hproc : x.event.process = i := by rw [hev]; rfl
    have hlen : (writesIn x.out).length ≤ 1 :=
      (hd.effects.filterMap _).length_le.trans hd.handled.writesIn_length
    have hidx : ∀ idx s, .write idx s ∈ x.out → idx = p.sectorIdx := by
      intro idx s hmem
      rw [(hd.handled.stores (hd.effects.subset hmem)).1]
      exact ((wellFormed hr).live i r hd.register).sectorIdx
    rcases Nat.le_one_iff_eq_zero_or_eq_one.mp hlen with hzero | hone
    · exact Or.inl (List.length_eq_zero_iff.mp hzero)
    · obtain ⟨s, hone⟩ := List.length_eq_one_iff.mp hone
      refine Or.inr ⟨cmd, r, r', effs, s, by rw [hproc]; exact hd, hone, ?_⟩
      rw [hproc, hd.sector, stored_eq p _ _ hidx, hone]
      rfl

/-- No step lowers a stored tag, where the condition holds. -/
theorem sectorTag_le (hr : SystemRun p P tr x.pre) (hP : NewTagLarger p x.pre x.event)
    (hs : step p x.pre x.event = some (x.post, x.out)) (i : UInt8) :
    sectorTag (x.pre.process i).sector ≤ sectorTag (x.post.process i).sector := by
  rcases sector_after hs i with hsame | ⟨cmd, r, r', effs, hd⟩
  · rw [hsame]
  · rw [hd.sector]
    rcases stored_cases p (x.pre.process i).sector x.out with hkeep | hmem
    · rw [hkeep]
    · exact (store_raises hr hP hs hd hmem).le

/-- The tags a process has called with so far increase, up to the one it has stored now. -/
theorem writes_increase (hr : SystemRun p (fun w e => NewTagLarger p w e ∧ WritesTakeEffect p w e) tr w)
    (i : UInt8) : (writes p i tr).Pairwise (fun a b => sectorTag a < sectorTag b) ∧
      ∀ s ∈ writes p i tr, sectorTag s ≤ sectorTag (w.process i).sector := by
  refine hr.invariant (I := fun tr w => (writes p i tr).Pairwise (fun a b => sectorTag a < sectorTag b) ∧
      ∀ s ∈ writes p i tr, sectorTag s ≤ sectorTag (w.process i).sector) ?_ ?_
  · simp [writes]
  · rintro tr x hr ih ⟨hP, heffect⟩ hs
    have hle := sectorTag_le hr hP hs i
    have hsplit : writes p i (tr ++ [x]) =
        writes p i tr ++ if x.event.process = i then writesIn x.out else [] := by
      rw [writes, List.flatMap_append, List.flatMap_singleton, heffect.writesIn_begun]
      rfl
    rw [hsplit]
    by_cases hi : x.event.process = i
    · rw [if_pos hi]
      rcases writesIn_step hr hs with hnil | ⟨cmd, r, r', effs, s, hd, hone, hsec⟩
      · rw [hnil, List.append_nil]
        exact ⟨ih.1, fun s hmem => (ih.2 s hmem).trans hle⟩
      · rw [hone]
        obtain ⟨idx, hmem⟩ := mem_writesIn.mp (by rw [hone]; exact List.mem_singleton_self s)
        rw [hi] at hd hsec
        have hlt := store_raises hr hP hs hd hmem
        refine ⟨List.pairwise_append.mpr ⟨ih.1, List.pairwise_singleton _ _, ?_⟩, ?_⟩
        · intro a ha b hb
          obtain rfl := List.mem_singleton.mp hb
          exact (ih.2 a ha).trans_lt hlt
        · intro a ha
          rcases List.mem_append.mp ha with ha | ha
          · exact (ih.2 a ha).trans hle
          · obtain rfl := List.mem_singleton.mp ha
            rw [hsec]
    · rw [if_neg hi, List.append_nil]
      exact ⟨ih.1, fun s hmem => (ih.2 s hmem).trans hle⟩

/-- CORRECT (stored tags, under the conditions): in every run that meets `LatestForWrites` at each quorum and in
    which no call of `sectors_manager.write` is interrupted before it has taken effect, the calls by one
    process come with strictly increasing tags, none of them above the tag that is stored in the end; no call
    comes with the tag the storage has; and the tag of a register and of a storage is at least what it was at
    any earlier state, crashes and rebuilds in between included. -/
theorem stored_tags_increase
    (hr : SystemRun p (fun w e => LatestForWrites p w e ∧ WritesTakeEffect p w e) tr w) (i : UInt8) :
    (writes p i tr).Pairwise (fun a b => sectorTag a < sectorTag b) ∧
    (∀ s ∈ writes p i tr, sectorTag s ≤ sectorTag (w.process i).sector) ∧
    (∀ x ∈ tr, x.event.process = i → ∀ s ∈ writesIn (begunEffects p x),
      sectorTag (x.pre.process i).sector < sectorTag s) ∧
    ∀ l₁ l₂ w₁, tr = l₁ ++ l₂ →
      SystemRun p (fun w e => LatestForWrites p w e ∧ WritesTakeEffect p w e) l₁ w₁ →
      sectorTag (w₁.process i).sector ≤ sectorTag (w.process i).sector ∧
      ∀ r₁ r, (w₁.process i).register = some r₁ → (w.process i).register = some r →
        tag r₁.ts r₁.wr ≤ tag r.ts r.wr := by
  obtain ⟨hpairwise, hlast⟩ := writes_increase (hr.weaken fun _ _ h => ⟨h.1.newTagLarger, h.2⟩) i
  refine ⟨hpairwise, hlast, fun x hx hi s hmem => ?_, fun l₁ l₂ w₁ htr hr₁ => ?_⟩
  · obtain ⟨l, hrun, ⟨hP, heffect⟩, hs⟩ := hr.entry hx
    rw [heffect.writesIn_begun] at hmem
    rcases writesIn_step hrun hs with hnil | ⟨cmd, r, r', effs, s', hd, hone, -⟩
    · simp [hnil] at hmem
    · obtain ⟨idx, hmem⟩ := mem_writesIn.mp hmem
      rw [hi] at hd
      exact store_raises hrun hP.newTagLarger hs hd hmem
  · have hle := hr.le_last (fun w => sectorTag (w.process i).sector)
      (fun tr x hrun hP hs => sectorTag_le hrun hP.1.newTagLarger hs i) hr₁ htr
    refine ⟨hle, fun r₁ r hreg₁ hreg => ?_⟩
    have hdur₁ := ((wellFormed hr₁).live i r₁ hreg₁).durable
    have hdur := ((wellFormed hr).live i r hreg).durable
    simpa [hdur₁, hdur] using hle

/-! ### A tag stands for the same data everywhere -/

/-- A step that issues leaves the issued tag in storage, where there was a smaller one. -/
theorem Issues.sector (hr : SystemRun p P tr x.pre) (hP : NewTagLarger p x.pre x.event)
    (hs : step p x.pre x.event = some (x.post, x.out)) (h : Issues p i id t d x) :
    sectorTag (x.pre.process i).sector < tag t i ∧ sectorTag (x.post.process i).sector = tag t i := by
  obtain ⟨⟨cmd, order, cut, hev, -⟩, hmem⟩ := h
  have hproc : x.event.process = i := by rw [hev]; rfl
  have hin : (d, t, i) ∈ writesIn x.out := mem_writesIn.mpr ⟨_, hmem⟩
  rcases writesIn_step hr hs with hnil | ⟨cmd, r, r', effs, s, hd, hone, hsec⟩
  · simp [hnil] at hin
  · obtain rfl : (d, t, i) = s := by simpa [hone] using hin
    rw [hproc] at hd hsec
    exact ⟨store_raises hr hP hs hd hmem, by rw [hsec, sectorTag_mk]⟩

/-- A process issues a tag in one step only. -/
theorem Issues.unique (hr : SystemRun p (NewTagLarger p) tr w) {y : Step} {id' : Uuid} (hx : x ∈ tr)
    (hy : y ∈ tr) (h : Issues p i id t d x) (h' : Issues p i id' t d' y) : x = y := by
  obtain ⟨-, hgrow⟩ := hr.monotone (fun w => sectorTag (w.process i).sector)
    fun tr x hrun hP hs => sectorTag_le hrun hP hs i
  -- whichever comes first leaves the tag, and the other needs a smaller one
  have hnot : ∀ a ∈ tr, ∀ b ∈ tr, ∀ {ida idb da db}, Issues p i ida t da a → Issues p i idb t db b →
      ¬ sectorTag (a.post.process i).sector ≤ sectorTag (b.pre.process i).sector := by
    intro a ha b hb ida idb da db hia hib hle
    obtain ⟨_, hra, hPa, hsa⟩ := hr.entry ha
    obtain ⟨_, hrb, hPb, hsb⟩ := hr.entry hb
    rw [(hia.sector hra hPa hsa).2] at hle
    exact absurd (hib.sector hrb hPb hsb).1 (not_lt.mpr hle)
  by_contra hne
  rcases pairwise_either hgrow hx hy hne with hle | hle
  · exact hnot x hx y hy h h' hle
  · exact hnot y hy x hx h' h hle

/-- Only processes issue, and their ranks start at 1. -/
theorem Issues.rank_pos (hr : SystemRun p P tr w) (hx : x ∈ tr) (h : Issues p i id t d x) : i ≠ 0 := by
  obtain ⟨l, hrun, -, hs⟩ := hr.entry hx
  obtain ⟨cmd, v, e, r, r', effs, hpk⟩ := h.1.picked hs
  have hi := mem_processes.mp ((wellFormed hrun).live i r hpk.delivery.register).process
  rintro rfl
  simpa using (mem_targets.mp hi).1

/-- CORRECT (tag agreement, under the condition): in every state reached by a run that meets
    `NewTagLarger` at each quorum, copies with the same tag, wherever they are held, have the same
    data. -/
theorem tags_agree (hr : SystemRun p (NewTagLarger p) tr w) (h : Held w t wr d)
    (h' : Held w t wr d') : d = d' := by
  rcases held_sourced hr h with ⟨rfl, rfl, rfl⟩ | ⟨x, hx, id, hiss⟩
  · rcases held_sourced hr h' with ⟨-, -, rfl⟩ | ⟨y, hy, id', hiss'⟩
    · rfl
    · exact absurd rfl (hiss'.rank_pos hr hy)
  · rcases held_sourced hr h' with ⟨rfl, rfl, rfl⟩ | ⟨y, hy, id', hiss'⟩
    · exact absurd rfl (hiss.rank_pos hr hx)
    · -- both were issued by the process of that rank, in one step
      obtain rfl := hiss.unique hr hx hy hiss'
      obtain ⟨l, -, -, hs⟩ := hr.entry hx
      obtain ⟨cmd, v, e, r, r', effs, hpk⟩ := hiss.1.picked hs
      exact (hpk.only _ (hpk.delivery.effects.subset hiss'.2) _ _ _ (Or.inl ⟨_, rfl⟩)).2.2.symm

/-! ### Runs -/

section run

-- sectors of 4096 bytes are compared byte by byte when a concrete run is replayed
set_option maxRecDepth 40000

/-- Process 1 writes at processes 1 and 2, crashes and is rebuilt; process 2 then writes at processes 2 and 3, and
    process 1 stores that as well. -/
def storedTwice : List Event :=
  [call 1 1 (.write (filled 1)),
   deliver 1 1 1 .readProc,
   deliver 2 1 1 .readProc,
   deliver 1 1 1 (.value 0 0 .zeros),
   deliver 1 2 1 (.value 0 0 .zeros),
   deliver 2 1 1 (.writeProc 1 1 (filled 1)),
   .crash 1,
   .build 1,
   call 2 2 (.write (filled 2)),
   deliver 2 2 2 .readProc,
   deliver 3 2 2 .readProc,
   deliver 2 2 2 (.value 1 1 (filled 1)),
   deliver 2 3 2 (.value 0 0 .zeros),
   deliver 1 2 2 (.writeProc 2 2 (filled 2))]

/-- It meets the conditions, and process 1 stores under (1, 1) and (2, 2). -/
theorem storedTwice_run : ∃ tr w,
    SystemRun threeProcesses (fun w e => LatestForWrites threeProcesses w e ∧ WritesTakeEffect threeProcesses w e)
      tr w ∧ (writes threeProcesses 1 tr).map Prod.snd = [(1, 1), (2, 2)] ∧
    (w.process 1).sector = (filled 2, 2, 2) ∧ (w.process 2).sector = (filled 2, 2, 2) := by
  obtain ⟨tr, w, hr, hobs⟩ := run_of_events threeProcesses
    (fun w e => LatestForWrites threeProcesses w e ∧ WritesTakeEffect threeProcesses w e) storedTwice
    (fun tr w => decide ((writes threeProcesses 1 tr).map Prod.snd = [(1, 1), (2, 2)] ∧
      (w.process 1).sector = (filled 2, 2, 2) ∧ (w.process 2).sector = (filled 2, 2, 2))) (by decide +kernel)
  exact ⟨tr, w, hr, of_decide_eq_true hobs⟩

/-- The calls of that run, by the theorem about all runs. -/
theorem storedTwice_increase : ∃ tr w,
    SystemRun threeProcesses (fun w e => LatestForWrites threeProcesses w e ∧ WritesTakeEffect threeProcesses w e)
      tr w ∧ (writes threeProcesses 1 tr).map Prod.snd = [(1, 1), (2, 2)] ∧
    (writes threeProcesses 1 tr).Pairwise fun a b => sectorTag a < sectorTag b := by
  obtain ⟨tr, w, hr, htags, -⟩ := storedTwice_run
  exact ⟨tr, w, hr, htags, (stored_tags_increase hr 1).1⟩

/-- The copies of that run, by the theorem about all runs. -/
theorem storedTwice_agree : ∃ tr w, SystemRun threeProcesses (NewTagLarger threeProcesses) tr w ∧
    (w.process 1).sector = (filled 2, 2, 2) ∧ (w.process 2).sector = (filled 2, 2, 2) ∧
    ∀ d, Held w 2 2 d → d = filled 2 := by
  obtain ⟨tr, w, hr, -, hsec, hsec₂⟩ := storedTwice_run
  have hlarger := hr.weaken fun _ _ h => h.1.newTagLarger
  exact ⟨tr, w, hlarger, hsec, hsec₂, fun d hd => tags_agree hlarger hd (.storage hsec)⟩

/-- Two processes. -/
def twoProcesses : Params := ⟨2, 0, true⟩

/-- Process 2 stores its write under (1, 2), process 1 its own under (2, 1); process 1 crashes, is
    rebuilt, and writes again: the readlist holds (2, 1) and (1, 2), the highest rank is that of the
    latter, and the write is stored under (2, 1) a second time. -/
def tagReused : List Event :=
  [call 2 1 (.write (filled 1)),
   deliver 1 2 1 .readProc,
   deliver 2 2 1 .readProc,
   deliver 2 1 1 (.value 0 0 .zeros),
   deliver 2 2 1 (.value 0 0 .zeros),
   call 1 2 (.write (filled 2)),
   deliver 1 1 2 .readProc,
   deliver 2 1 2 .readProc,
   deliver 1 1 2 (.value 0 0 .zeros),
   deliver 1 2 2 (.value 1 2 (filled 1)),
   .crash 1,
   .build 1,
   call 1 3 (.write (filled 3)),
   deliver 1 1 3 .readProc,
   deliver 2 1 3 .readProc,
   deliver 1 1 3 (.value 2 1 (filled 2)),
   deliver 1 2 3 (.value 1 2 (filled 1))]

/-- Process 1 stores under (2, 1) twice, while a VALUE with the data of the first is on its way. -/
theorem tagReused_run : ∃ tr w, SystemRun twoProcesses (WritesTakeEffect twoProcesses) tr w ∧
    (writes twoProcesses 1 tr).map Prod.snd = [(2, 1), (2, 1)] ∧ (w.process 1).sector = (filled 3, 2, 1) ∧
    ⟨⟨⟨1, uuid 3, 0⟩, .value 2 1 (filled 2)⟩, 1⟩ ∈ w.network := by
  obtain ⟨tr, w, hr, hobs⟩ := run_of_events twoProcesses (WritesTakeEffect twoProcesses) tagReused
    (fun tr w => decide ((writes twoProcesses 1 tr).map Prod.snd = [(2, 1), (2, 1)]) &&
      (decide ((w.process 1).sector = (filled 3, 2, 1)) &&
        decide (⟨⟨⟨1, uuid 3, 0⟩, .value 2 1 (filled 2)⟩, 1⟩ ∈ w.network))) (by decide +kernel)
  rw [Bool.and_eq_true, Bool.and_eq_true, decide_eq_true_eq, decide_eq_true_eq,
    decide_eq_true_eq] at hobs
  exact ⟨tr, w, hr, hobs⟩

/-- Without the condition on the readlists stored tags need not increase, although every call takes effect. -/
theorem stored_tags_not_increasing : ¬ ∀ p tr w i, SystemRun p (WritesTakeEffect p) tr w →
    (writes p i tr).Pairwise fun a b => sectorTag a < sectorTag b := by
  intro hall
  obtain ⟨tr, w, hr, htags, -⟩ := tagReused_run
  have hinc : ((writes twoProcesses 1 tr).map Prod.snd).Pairwise fun a b => tag a.1 a.2 < tag b.1 b.2 :=
    List.pairwise_map.mpr (hall twoProcesses tr w 1 hr)
  rw [htags] at hinc
  simp at hinc

/-- Without the condition copies with the same tag need not have the same data. -/
theorem tags_not_agreeing : ¬ ∀ p tr w t wr d d', SystemRun p (fun _ _ => True) tr w →
    Held w t wr d → Held w t wr d' → d = d' := by
  intro hall
  obtain ⟨tr, w, hr, -, hsec, hmsg⟩ := tagReused_run
  have heq := hall twoProcesses tr w 2 1 _ _ (hr.weaken fun _ _ _ => trivial) (.storage hsec) (.value hmsg rfl)
  exact absurd heq (by decide)

end run

end AtomicDisk.Register
