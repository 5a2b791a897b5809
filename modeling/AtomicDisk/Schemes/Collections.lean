import Mathlib.Data.List.AList
import Mathlib.Data.Finset.Card
import Mathlib.Order.Defs.LinearOrder
import Mathlib.Tactic.Common

/-! Collections: hash maps whose iteration order is left open, the maximum of an iterator, majorities
    of a finite set, and the total weight of a list some of whose places are replaced. A hash map is an
    association list without repeated keys; whoever iterates over it is handed an `IterOrder`, so nothing can
    depend on the order of the list. -/

namespace AtomicDisk.Schemes

variable {K V : Type} [DecidableEq K]

/-- A hash map from `K` to `V`. -/
abbrev HashMap (K V : Type) := AList fun _ : K => V

/-- The number of keys. -/
def HashMap.len (m : HashMap K V) : ℕ := m.keys.length

/-- The keys as a finite set. -/
def HashMap.dom (m : HashMap K V) : Finset K := m.keys.toFinset

theorem HashMap.len_eq_card (m : HashMap K V) : m.len = m.dom.card :=
  (List.toFinset_card_of_nodup m.keys_nodup).symm

theorem HashMap.mem_dom {m : HashMap K V} {k : K} : k ∈ m.dom ↔ ∃ v, m.lookup k = some v := by
  rw [HashMap.dom, List.mem_toFinset, ← AList.mem_keys, ← AList.lookup_isSome,
    Option.isSome_iff_exists]

/-- The order in which an iteration visits the entries of a map: any rearrangement of them. -/
structure IterOrder (K V : Type) where
  iter : List (Σ _ : K, V) → List (Σ _ : K, V)
  perm : ∀ l, (iter l).Perm l

/-- The order of the list itself. -/
def IterOrder.asIs : IterOrder K V := ⟨fun l => l, fun _ => List.Perm.refl _⟩

theorem IterOrder.mem_iter (o : IterOrder K V) {m : HashMap K V} {k : K} {v : V} :
    (⟨k, v⟩ : Σ _ : K, V) ∈ o.iter m.entries ↔ m.lookup k = some v := by
  rw [(o.perm _).mem_iff, ← Option.mem_def, AList.mem_lookup_iff]

/-- The order of the list, except that `x` comes last. -/
def IterOrder.lastly [DecidableEq V] (x : Σ _ : K, V) : IterOrder K V where
  iter l := if x ∈ l then l.erase x ++ [x] else l
  perm l := by
    split
    · rename_i hx
      exact (List.perm_append_singleton x (l.erase x)).trans (List.perm_cons_erase hx).symm
    · exact List.Perm.refl l

/-! ### The maximum of an iterator -/

/-- `Iterator::max_by`: the last of the elements that no other exceeds. -/
def maxBy {α : Type} (cmp : α → α → Ordering) : List α → Option α
  | [] => none
  | a :: l => some (l.foldl (fun x y => if cmp x y = .gt then x else y) a)

section maxBy

variable {α β : Type} [LinearOrder β] {cmp : α → α → Ordering} {f : α → β}

theorem foldl_max (hcmp : ∀ x y, cmp x y = .gt ↔ f y < f x) : ∀ (l : List α) (a : α),
    let m := l.foldl (fun x y => if cmp x y = .gt then x else y) a
    (m = a ∨ m ∈ l) ∧ f a ≤ f m ∧ ∀ b ∈ l, f b ≤ f m
  | [], a => by simp
  | b :: l, a => by
    rw [List.foldl_cons]
    by_cases hab : cmp a b = .gt
    · obtain ⟨hm, ha, hl⟩ := foldl_max hcmp l a
      rw [if_pos hab]
      refine ⟨hm.imp_right (List.mem_cons_of_mem _), ha, fun c hc => ?_⟩
      rcases List.mem_cons.mp hc with rfl | hc
      · exact ((hcmp a c).mp hab).le.trans ha
      · exact hl c hc
    · obtain ⟨hm, hb, hl⟩ := foldl_max hcmp l b
      rw [if_neg hab]
      have hle : f a ≤ f b := not_lt.mp fun h => hab ((hcmp a b).mpr h)
      refine ⟨Or.inr ?_, hle.trans hb, fun c hc => ?_⟩
      · rcases hm with hm | hm
        · rw [hm]; exact List.mem_cons_self ..
        · exact List.mem_cons_of_mem _ hm
      · rcases List.mem_cons.mp hc with rfl | hc
        · exact hb
        · exact hl c hc

/-- The maximum is an element, and none is larger. -/
theorem maxBy_spec (hcmp : ∀ x y, cmp x y = .gt ↔ f y < f x) {l : List α} {m : α}
    (h : maxBy cmp l = some m) : m ∈ l ∧ ∀ b ∈ l, f b ≤ f m := by
  cases l with
  | nil => simp [maxBy] at h
  | cons a l =>
    obtain ⟨hm, ha, hl⟩ := foldl_max hcmp l a
    obtain rfl := Option.some.inj h
    refine ⟨?_, fun b hb => ?_⟩
    · rcases hm with hm | hm
      · rw [hm]; exact List.mem_cons_self ..
      · exact List.mem_cons_of_mem _ hm
    · rcases List.mem_cons.mp hb with rfl | hb
      · exact ha
      · exact hl b hb

/-- Of the elements that no other exceeds, the last is found. -/
theorem maxBy_concat (hcmp : ∀ x y, cmp x y = .gt ↔ f y < f x) {l : List α} {a : α}
    (ha : ∀ b ∈ l, f b ≤ f a) : maxBy cmp (l ++ [a]) = some a := by
  cases l with
  | nil => rfl
  | cons b l =>
    obtain ⟨hm, -, -⟩ := foldl_max hcmp l b
    have hle : f (l.foldl (fun x y => if cmp x y = .gt then x else y) b) ≤ f a := by
      refine ha _ ?_
      rcases hm with hm | hm
      · rw [hm]; exact List.mem_cons_self ..
      · exact List.mem_cons_of_mem _ hm
    have hgt := mt (hcmp _ a).mp hle.not_gt
    simp [maxBy, List.foldl_append, hgt]

theorem maxBy_isSome {l : List α} (h : l ≠ []) : ∃ m, maxBy cmp l = some m := by
  cases l with
  | nil => exact absurd rfl h
  | cons a l => exact ⟨_, rfl⟩

end maxBy

/-! ### Majorities -/

/-- Two majorities of one finite set have a common member. -/
theorem majority_inter {α : Type} [DecidableEq α] {u a b : Finset α} (ha : a ⊆ u) (hb : b ⊆ u)
    (hma : u.card / 2 < a.card) (hmb : u.card / 2 < b.card) : ∃ x, x ∈ a ∧ x ∈ b := by
  have hunion : (a ∪ b).card ≤ u.card := Finset.card_le_card (Finset.union_subset ha hb)
  have hsum := Finset.card_union_add_card_inter a b
  have hpos : 0 < (a ∩ b).card := by omega
  obtain ⟨x, hx⟩ := Finset.card_pos.mp hpos
  exact ⟨x, Finset.mem_inter.mp hx⟩

/-! ### Weights -/

section weigh

variable {α : Type} {l : List α} {i : ℕ} {a : α} {P : ℕ → α → Prop}

/-- The total weight of the elements. -/
def weigh (f : α → ℕ) (l : List α) : ℕ := l.foldr (fun a n => f a + n) 0

@[simp] theorem weigh_nil (f : α → ℕ) : weigh f [] = 0 := rfl

@[simp] theorem weigh_cons (f : α → ℕ) (a : α) (l : List α) : weigh f (a :: l) = f a + weigh f l := rfl

@[simp] theorem weigh_append (f : α → ℕ) (l l' : List α) : weigh f (l ++ l') = weigh f l + weigh f l' := by
  induction l with
  | nil => simp
  | cons a l ih => simp [ih, Nat.add_assoc]

theorem weigh_eq_zero {f : α → ℕ} (h : ∀ a ∈ l, f a = 0) : weigh f l = 0 := by
  induction l with
  | nil => rfl
  | cons a l ih => simp [ih fun b hb => h b (List.mem_cons_of_mem _ hb), h a (List.mem_cons_self ..)]

theorem weigh_toNat (q : α → Bool) (l : List α) : weigh (fun a => (q a).toNat) l = l.countP q := by
  induction l with
  | nil => rfl
  | cons a l ih =>
    rw [weigh_cons, List.countP_cons, ih]
    cases q a <;> simp [Nat.add_comm]

/-- An element is replaced. -/
theorem weigh_set (f : α → ℕ) (h : l[i]? = some a) (b : α) :
    weigh f (l.set i b) + f a = weigh f l + f b := by
  induction l generalizing i with
  | nil => simp at h
  | cons x l ih =>
    cases i with
    | zero =>
      obtain rfl : x = a := by simpa using h
      simp only [List.set_cons_zero, weigh_cons]
      omega
    | succ i =>
      have := ih (i := i) (by simpa using h)
      simp only [List.set_cons_succ, weigh_cons]
      omega

/-- An element is replaced by one of the same weight. -/
theorem weigh_set_same (f : α → ℕ) (h : l[i]? = some a) (b : α) (hb : f b = f a) :
    weigh f (l.set i b) = weigh f l := by
  have hset := weigh_set f h b
  omega

theorem weigh_le {f g : α → ℕ} (h : ∀ a, f a ≤ g a) : weigh f l ≤ weigh g l := by
  induction l with
  | nil => exact le_rfl
  | cons a l ih => exact Nat.add_le_add (h a) ih

theorem le_weigh (f : α → ℕ) (h : l[i]? = some a) : f a ≤ weigh f l := by
  induction l generalizing i with
  | nil => simp at h
  | cons x l ih =>
    rw [weigh_cons]
    cases i with
    | zero =>
      obtain rfl : x = a := by simpa using h
      omega
    | succ i =>
      have := ih (i := i) (by simpa using h)
      omega

/-- What holds of every element, after one more is put at the end. -/
theorem forall_mem_snoc {Q : α → Prop} {b : α} (h : ∀ x ∈ l, Q x) (hb : Q b) : ∀ x ∈ l ++ [b], Q x :=
  List.forall_mem_append.mpr ⟨h, List.forall_mem_singleton.mpr hb⟩

/-- A place that is there, after it has been replaced. -/
theorem getElem?_set_of {a b : α} (h : l[i]? = some a) : (l.set i b)[i]? = some b :=
  List.getElem?_set_self (List.getElem?_eq_some_iff.mp h).1

/-- What holds at every place, after one of them is replaced. -/
theorem forall_set {b : α} (h : ∀ j x, l[j]? = some x → P j x) (hb : P i b) :
    ∀ j x, (l.set i b)[j]? = some x → P j x := by
  intro j x hj
  rw [List.getElem?_set] at hj
  split at hj
  · rename_i heq
    subst heq
    split at hj
    · obtain rfl := Option.some.inj hj
      exact hb
    · simp at hj
  · exact h j x hj

end weigh

/-- Of the contributions of the numbers below `n`, all but one are empty. -/
theorem flatMap_range_single {β : Type*} {f : ℕ → List β} {n s : ℕ} (hs : s < n)
    (h : ∀ i, i ≠ s → f i = []) : (List.range n).flatMap f = f s := by
  induction n with
  | zero => omega
  | succ n ih =>
    rw [List.range_succ, List.flatMap_append, List.flatMap_singleton]
    rcases eq_or_ne s n with rfl | hne
    · have hnil : (List.range s).flatMap f = [] := by
        rw [List.flatMap_eq_nil_iff]
        intro i hi
        exact h i (List.mem_range.mp hi).ne
      rw [hnil, List.nil_append]
    · rw [ih (by omega), h n (Ne.symm hne), List.append_nil]

end AtomicDisk.Schemes
