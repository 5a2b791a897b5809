import AtomicDisk.Schemes.Linearizable

/-! Histories seen from further away. Between a client and a register there is a way in both directions, so for
    the client an operation begins earlier and ends later than it does for the register:

        register:            invoke o ─────── respond o
        client:    invoke φ(o) ──────────────────────── respond φ(o)

    Fewer operations are then one after the other, so what is linearizable for the register is linearizable for
    its clients (`Stretched.linearizable`). Some operations may not have arrived at all, and some responses
    may have been lost. -/

namespace AtomicDisk.Schemes

variable {ι κ V : Type}

/-- `h'` is `h` from further away: `φ` gives the operations of `h` their names in `h'`. -/
structure Stretched (φ : ι → κ) (h : List (HEvent ι V)) (h' : List (HEvent κ V)) : Prop where
  invoked : ∀ o c, .invoke o c ∈ h → .invoke (φ o) c ∈ h'
  responded : ∀ o' r, .respond o' r ∈ h' → ∃ o, φ o = o' ∧ .respond o r ∈ h
  injective : ∀ o₁ o₂ c₁ c₂, .invoke o₁ c₁ ∈ h → .invoke o₂ c₂ ∈ h → φ o₁ = φ o₂ → o₁ = o₂
  precedes : ∀ o₁ o₂ c₁ c₂, .invoke o₁ c₁ ∈ h → .invoke o₂ c₂ ∈ h → Precedes h' (φ o₁) (φ o₂) → Precedes h o₁ o₂

/-- Reads do not count for the last write. -/
theorem lastWrite_filter (init : V) {keep : ι × Call V → Bool} : ∀ l : List (ι × Call V),
    (∀ x ∈ l, keep x = false → x.2 = .read) →
      lastWrite init ((l.filter keep).map Prod.snd) = lastWrite init (l.map Prod.snd)
  | [], _ => rfl
  | x :: l, h => by
    have hl := fun init => lastWrite_filter init l fun y hy => h y (List.mem_cons_of_mem _ hy)
    cases hx : keep x with
    | true =>
      obtain ⟨o, _ | v⟩ := x
      · simpa [List.filter_cons, hx, lastWrite] using hl init
      · simpa [List.filter_cons, hx, lastWrite] using hl v
    | false =>
      obtain ⟨o, c⟩ := x
      obtain rfl : c = .read := h _ (List.mem_cons_self ..) hx
      simpa [List.filter_cons, hx, lastWrite] using hl init

variable {φ : ι → κ} {h : List (HEvent ι V)} {h' : List (HEvent κ V)} {init : V}

open Classical in
/-- The operations that stay: those with a response, and the writes. -/
noncomputable def kept (φ : ι → κ) (h' : List (HEvent κ V)) (x : ι × Call V) : Bool :=
  decide ((∃ r, .respond (φ x.1) r ∈ h') ∨ ∃ v, x.2 = .write v)

theorem kept_iff {x : ι × Call V} :
    kept φ h' x = true ↔ (∃ r, .respond (φ x.1) r ∈ h') ∨ ∃ v, x.2 = .write v := by
  simp [kept]

/-- An operation that stays, and what stays before it. -/
theorem filter_map_split {α β : Type} {keep : α → Bool} {g : α → β} {l : List α} {l₁ l₂ : List β} {b : β}
    (h : (l.filter keep).map g = l₁ ++ b :: l₂) :
    ∃ m₁ a m₂, l = m₁ ++ a :: m₂ ∧ g a = b ∧ (m₁.filter keep).map g = l₁ := by
  obtain ⟨k₁, k₂, hk, rfl, hb⟩ := List.map_eq_append_iff.mp h
  obtain ⟨a, k₂, rfl, rfl, -⟩ := List.map_eq_cons_iff.mp hb
  obtain ⟨m₁, m₂, rfl, rfl, hm₂⟩ := List.filter_eq_append_iff.mp hk
  obtain ⟨n₁, n₂, rfl, hn₁, -, -⟩ := List.filter_eq_cons_iff.mp hm₂
  refine ⟨m₁ ++ n₁, a, n₂, by simp, rfl, ?_⟩
  rw [List.filter_append, List.filter_eq_nil_iff.mpr hn₁, List.append_nil]

/-- What is linearizable stays so from further away. -/
theorem Stretched.linearizable (hs : Stretched φ h h') (hl : Linearizable init h) : Linearizable init h' := by
  obtain ⟨l, hl⟩ := hl
  have hmem : ∀ {x}, x ∈ l.filter (kept φ h') → x ∈ l ∧ ((∃ r, .respond (φ x.1) r ∈ h') ∨ ∃ v, x.2 = .write v) :=
    fun hx => ⟨(List.mem_filter.mp hx).1, kept_iff.mp (List.mem_filter.mp hx).2⟩
  refine ⟨(l.filter (kept φ h')).map fun x => (φ x.1, x.2), ?_, ?_, ?_, ?_, ?_, ?_⟩
  · have hnodup : ((l.filter (kept φ h')).map Prod.fst).Nodup := hl.nodup.sublist (List.filter_sublist.map _)
    have hφ := hnodup.map_on (f := φ) fun o₁ ho₁ o₂ ho₂ heq => by
      obtain ⟨x₁, hx₁, rfl⟩ := List.mem_map.mp ho₁
      obtain ⟨x₂, hx₂, rfl⟩ := List.mem_map.mp ho₂
      exact hs.injective _ _ _ _ (hl.invoked x₁ (hmem hx₁).1) (hl.invoked x₂ (hmem hx₂).1) heq
    rwa [List.map_map] at hφ ⊢
  · intro y hy
    obtain ⟨x, hx, rfl⟩ := List.mem_map.mp hy
    exact hs.invoked _ _ (hl.invoked x (hmem hx).1)
  · intro o' r hr
    obtain ⟨o, rfl, hor⟩ := hs.responded o' r hr
    obtain ⟨c, hc⟩ := hl.completed o r hor
    refine ⟨c, List.mem_map.mpr ⟨(o, c), List.mem_filter.mpr ⟨hc, kept_iff.mpr (Or.inl ⟨r, hr⟩)⟩, rfl⟩⟩
  · intro y hy
    obtain ⟨x, hx, rfl⟩ := List.mem_map.mp hy
    exact (hmem hx).2
  · rw [List.pairwise_map]
    refine (hl.realTime.filter _).imp_of_mem fun {x y} hx hy hxy hprec => ?_
    exact hxy (hs.precedes _ _ _ _ (hl.invoked y (hmem hy).1) (hl.invoked x (hmem hx).1) hprec)
  · intro l₁ o' l₂ heq r hr
    obtain ⟨m₁, ⟨o, c⟩, m₂, rfl, ho, rfl⟩ := filter_map_split heq
    obtain ⟨rfl, rfl⟩ := Prod.mk.inj ho
    -- the response is that of the operation itself
    obtain ⟨o₂, ho₂, hor⟩ := hs.responded _ r hr
    obtain ⟨c₂, hc₂⟩ := hl.completed o₂ r hor
    obtain rfl := hs.injective o₂ o _ _ (hl.invoked _ hc₂) (hl.invoked (o, .read) (by simp)) ho₂
    rw [hl.legal m₁ o₂ m₂ rfl r hor, List.map_map]
    refine congrArg some (lastWrite_filter init m₁ fun x _ hx => ?_).symm
    obtain ⟨o, _ | v⟩ := x
    · rfl
    · rw [kept_iff.mpr (Or.inr ⟨v, rfl⟩)] at hx
      cases hx

end AtomicDisk.Schemes
