import Mathlib.Data.List.Sort
import Mathlib.Data.Prod.Lex
import Mathlib.Tactic.Common

/-! Linearizability of a read/write register, and the timestamp argument for it. A history is the
    list of the invocations and responses of client operations in the order they happened. It is
    linearizable when its completed operations, with some of the pending writes, can be put in one
    order that respects real time and in which every read returns the last value written before it.

    The timestamp argument (`linearizable_of_tags`): give every operation a tag from a linear order,
    and sort by tag, writes before reads, then by the order of invocation.

        write tag 1 ── read tag 1 ── read tag 1 ── write tag 2 ── read tag 2 ── …

    It is enough that tags grow with real time, strictly so at a write, that no two writes share a
    tag, and that a read returns what the write of its tag wrote. -/

namespace AtomicDisk.Schemes

/-- What a client asks of the register. -/
inductive Call (V : Type) where
  | read
  | write (v : V)
  deriving DecidableEq

/-- An event of a history: operation `o` is invoked, or it responds (a read with a value). -/
inductive HEvent (ι V : Type) where
  | invoke (o : ι) (c : Call V)
  | respond (o : ι) (r : Option V)
  deriving DecidableEq

variable {ι V : Type}

/-- `o` has responded before `o'` is invoked. -/
def Precedes (h : List (HEvent ι V)) (o o' : ι) : Prop :=
  ∃ r c, List.Sublist [.respond o r, .invoke o' c] h

/-- The register's content after a sequence of calls. -/
def lastWrite (init : V) : List (Call V) → V
  | [] => init
  | .read :: l => lastWrite init l
  | .write v :: l => lastWrite v l

/-- `l` is a linearization of `h`: a total order of its completed operations and some pending
    writes, in real-time order, in which every completed read returns the last value written. -/
structure Linearization (init : V) (h : List (HEvent ι V)) (l : List (ι × Call V)) : Prop where
  nodup : (l.map Prod.fst).Nodup
  invoked : ∀ x ∈ l, .invoke x.1 x.2 ∈ h
  completed : ∀ o r, .respond o r ∈ h → ∃ c, (o, c) ∈ l
  pending : ∀ x ∈ l, (∃ r, .respond x.1 r ∈ h) ∨ ∃ v, x.2 = .write v
  realTime : l.Pairwise fun x y => ¬ Precedes h y.1 x.1
  legal : ∀ l₁ o l₂, l = l₁ ++ (o, .read) :: l₂ → ∀ r, .respond o r ∈ h →
    r = some (lastWrite init (l₁.map Prod.snd))

/-- The history has a linearization. -/
def Linearizable (init : V) (h : List (HEvent ι V)) : Prop := ∃ l, Linearization init h l

/-! ### The last write of a sequence of calls -/

theorem lastWrite_append (init : V) : ∀ l₁ l₂ : List (Call V),
    lastWrite init (l₁ ++ l₂) = lastWrite (lastWrite init l₁) l₂
  | [], _ => rfl
  | .read :: l₁, l₂ => lastWrite_append init l₁ l₂
  | .write v :: l₁, l₂ => lastWrite_append v l₁ l₂

theorem lastWrite_reads (init : V) : ∀ l : List (Call V), (∀ v, .write v ∉ l) → lastWrite init l = init
  | [], _ => rfl
  | .read :: l, h => lastWrite_reads init l fun v hv => h v (List.mem_cons_of_mem _ hv)
  | .write v :: _, h => absurd (List.mem_cons_self ..) (h v)

/-- The value of a write that no other write follows. -/
theorem lastWrite_write (init v : V) (l₁ l₂ : List (Call V)) (h : ∀ v, .write v ∉ l₂) :
    lastWrite init (l₁ ++ .write v :: l₂) = v := by
  rw [lastWrite_append, lastWrite, lastWrite_reads v l₂ h]

/-! ### A history that is not linearizable -/

/-- Two writes one after the other, and then a read that returns the first of the two values. -/
def staleHistory (o₁ o₂ o₃ : ι) (a b : V) : List (HEvent ι V) :=
  [.invoke o₁ (.write a), .respond o₁ none, .invoke o₂ (.write b), .respond o₂ none,
   .invoke o₃ .read, .respond o₃ (some a)]

theorem staleHistory_not_linearizable {init a b : V} (hab : a ≠ b) {o₁ o₂ o₃ : ι} (h₁₂ : o₁ ≠ o₂)
    (h₂₃ : o₂ ≠ o₃) (h₁₃ : o₁ ≠ o₃) : ¬ Linearizable init (staleHistory o₁ o₂ o₃ a b) := by
  rintro ⟨l, hl⟩
  have hops : ∀ x ∈ l, x = (o₁, .write a) ∨ x = (o₂, .write b) ∨ x = (o₃, .read) := by
    rintro ⟨o, c⟩ hx
    simpa [staleHistory] using hl.invoked _ hx
  have hprec₁ : Precedes (staleHistory o₁ o₂ o₃ a b) o₁ o₂ :=
    ⟨none, .write b, .cons _ (.cons_cons _ (.cons_cons _ (List.nil_sublist _)))⟩
  have hprec₂ : Precedes (staleHistory o₁ o₂ o₃ a b) o₂ o₃ :=
    ⟨none, .read, .cons _ (.cons _ (.cons _ (.cons_cons _ (.cons_cons _ (List.nil_sublist _)))))⟩
  obtain ⟨c₂, hc₂⟩ := hl.completed o₂ none (by simp [staleHistory])
  obtain ⟨c₃, hc₃⟩ := hl.completed o₃ (some a) (by simp [staleHistory])
  obtain rfl : c₂ = .write b := by simpa [h₁₂.symm, h₂₃] using hops _ hc₂
  obtain rfl : c₃ = .read := by simpa [h₁₃.symm, h₂₃.symm] using hops _ hc₃
  obtain ⟨l₁, l₂, rfl⟩ := List.append_of_mem hc₃
  have hval := hl.legal l₁ o₃ l₂ rfl (some a) (by simp [staleHistory])
  obtain ⟨hrt₁, hrt₂, -⟩ := List.pairwise_append.mp hl.realTime
  -- the second write stands before the read, and nothing but the read can stand behind it
  have hin : (o₂, Call.write b) ∈ l₁ := by
    rcases List.mem_append.mp hc₂ with hin | hin
    · exact hin
    · rcases List.mem_cons.mp hin with heq | hin
      · simp at heq
      · exact absurd hprec₂ ((List.pairwise_cons.mp hrt₂).1 _ hin)
  obtain ⟨m₁, m₂, rfl⟩ := List.append_of_mem hin
  have hnone : ∀ v, Call.write v ∉ m₂.map Prod.snd := by
    intro v hv
    obtain ⟨⟨o, c⟩, hx, rfl⟩ := List.mem_map.mp hv
    rcases hops (o, .write v) (by simp [hx]) with heq | heq | heq
    · obtain ⟨rfl, -⟩ := Prod.mk.inj heq
      exact (List.pairwise_cons.mp (List.pairwise_append.mp hrt₁).2.1).1 _ hx hprec₁
    · obtain ⟨rfl, -⟩ := Prod.mk.inj heq
      have hnd := hl.nodup
      simp only [List.map_append, List.map_cons, List.append_assoc] at hnd
      exact (List.nodup_cons.mp (List.nodup_append.mp hnd).2.1).1
        (List.mem_append_left _ (List.mem_map.mpr ⟨_, hx, rfl⟩))
    · simp at heq
  rw [List.map_append, List.map_cons, lastWrite_write _ _ _ _ hnone] at hval
  exact hab (Option.some.inj hval)

/-! ### Sorting by tags -/

section tags

variable {T : Type} [LinearOrder T] (tag : ι → T) (num : ι → ℕ)

/-- Reads come after the write of the same tag. -/
def Call.rank : Call V → ℕ
  | .write _ => 0
  | .read => 1

/-- The sorting key of an operation: its tag, writes first, then the order of invocation. -/
def key (x : ι × Call V) : T ×ₗ ℕ ×ₗ ℕ := toLex (tag x.1, toLex (x.2.rank, num x.1))

theorem key_lt {x y : ι × Call V} : key tag num x < key tag num y ↔
    tag x.1 < tag y.1 ∨ tag x.1 = tag y.1 ∧
      (x.2.rank < y.2.rank ∨ x.2.rank = y.2.rank ∧ num x.1 < num y.1) := by
  simp [key, Prod.Lex.lt_iff]

theorem tag_le_of_key_le {x y : ι × Call V} (h : key tag num x ≤ key tag num y) :
    tag x.1 ≤ tag y.1 := by
  by_contra hlt
  exact absurd h (not_le.mpr ((key_lt tag num).mpr (Or.inl (not_le.mp hlt))))

/-- What a tag assignment to the operations `ops` of a history must satisfy. -/
structure Tagging (init : V) (h : List (HEvent ι V)) (ops : List (ι × Call V)) : Prop where
  nodup : (ops.map Prod.fst).Nodup
  invoked : ∀ x ∈ ops, .invoke x.1 x.2 ∈ h
  completed : ∀ o r, .respond o r ∈ h → ∃ c, (o, c) ∈ ops
  pending : ∀ x ∈ ops, (∃ r, .respond x.1 r ∈ h) ∨ ∃ v, x.2 = .write v
  numbered : ∀ x ∈ ops, ∀ y ∈ ops, Precedes h x.1 y.1 → num x.1 < num y.1
  ordered : ∀ x ∈ ops, ∀ y ∈ ops, Precedes h x.1 y.1 →
    tag x.1 < tag y.1 ∨ tag x.1 = tag y.1 ∧ y.2 = .read
  distinct : ∀ x ∈ ops, ∀ y ∈ ops, ∀ v w, x.2 = .write v → y.2 = .write w → tag x.1 = tag y.1 → x = y
  reads : ∀ o, (o, .read) ∈ ops → ∀ r, .respond o r ∈ h →
    r = some init ∧ (∀ o' v, (o', .write v) ∈ ops → tag o < tag o') ∨
    ∃ o' v, (o', .write v) ∈ ops ∧ tag o' = tag o ∧ r = some v

variable {tag num} {init : V} {h : List (HEvent ι V)} {ops l : List (ι × Call V)}

/-- In an order sorted by keys no operation comes before one that precedes it in real time. -/
theorem Tagging.realTime (ht : Tagging tag num init h ops) (hl : l.Perm ops)
    (hsort : l.Pairwise fun x y => key tag num x ≤ key tag num y) :
    l.Pairwise fun x y => ¬ Precedes h y.1 x.1 := by
  refine hsort.imp_of_mem fun {x y} hx hy hle hprec => ?_
  have hx := hl.mem_iff.mp hx
  have hy := hl.mem_iff.mp hy
  refine absurd hle (not_le.mpr ((key_lt tag num).mpr ?_))
  rcases ht.ordered y hy x hx hprec with hlt | ⟨heq, hread⟩
  · exact Or.inl hlt
  · -- equal tags: `x` is a read, so only the kind of `y` and then its number decide
    refine Or.inr ⟨heq, ?_⟩
    rw [hread]
    cases hc : y.2 with
    | write v => exact Or.inl (by simp [Call.rank])
    | read => exact Or.inr ⟨rfl, ht.numbered y hy x hx hprec⟩

/-- In an order sorted by keys a read returns the last value written before it. -/
theorem Tagging.legal (ht : Tagging tag num init h ops) (hl : l.Perm ops)
    (hsort : l.Pairwise fun x y => key tag num x ≤ key tag num y) {l₁ l₂ : List (ι × Call V)} {o : ι}
    (heq : l = l₁ ++ (o, .read) :: l₂) {r : Option V} (hr : .respond o r ∈ h) :
    r = some (lastWrite init (l₁.map Prod.snd)) := by
  have hmem : ∀ x, x ∈ l ↔ x ∈ ops := fun x => hl.mem_iff
  have ho : (o, Call.read) ∈ ops := (hmem _).mp (by simp [heq])
  rw [heq, List.pairwise_append, List.pairwise_cons] at hsort
  obtain ⟨hs₁, ⟨hs₂, -⟩, hcross⟩ := hsort
  -- whatever stands before the read has a tag that is not above the read's
  have hbefore : ∀ x ∈ l₁, tag x.1 ≤ tag o := fun x hx =>
    tag_le_of_key_le tag num (hcross x hx (o, .read) (by simp))
  rcases ht.reads o ho r hr with ⟨rfl, hnone⟩ | ⟨o', v, ho', htag, rfl⟩
  · rw [lastWrite_reads]
    intro v hv
    obtain ⟨x, hx, hxv⟩ := List.mem_map.mp hv
    have hxo : (x.1, Call.write v) ∈ ops := (hmem _).mp (by rw [← hxv]; simp [heq, hx])
    exact absurd (hnone x.1 v hxo) (not_lt.mpr (hbefore x hx))
  · have hkey : key tag num (o', Call.write v) < key tag num (o, Call.read) :=
      (key_lt tag num).mpr (Or.inr ⟨htag, Or.inl (by simp [Call.rank])⟩)
    have hin : (o', Call.write v) ∈ l₁ := by
      have hm := (hmem _).mpr ho'
      rw [heq] at hm
      rcases List.mem_append.mp hm with hm | hm
      · exact hm
      · rcases List.mem_cons.mp hm with hm | hm
        · simp at hm
        · exact absurd (hs₂ _ hm) (not_le.mpr hkey)
    obtain ⟨a, b, rfl⟩ := List.append_of_mem hin
    rw [List.map_append, List.map_cons, lastWrite_write]
    -- a later write before the read would have the same tag, hence be the same operation
    intro w hw
    obtain ⟨x, hx, hxw⟩ := List.mem_map.mp hw
    have hxo : x ∈ ops := (hmem _).mp (by simp [heq, hx])
    have hge : tag o' ≤ tag x.1 := tag_le_of_key_le tag num
      ((List.pairwise_cons.mp (List.pairwise_append.mp hs₁).2.1).1 x hx)
    have hle : tag x.1 ≤ tag o := hbefore x (by simp [hx])
    have hsame : (o', Call.write v) = x :=
      ht.distinct _ ho' x hxo v w rfl hxw (le_antisymm hge (htag ▸ hle))
    have hnd := (hl.map Prod.fst).nodup_iff.mpr ht.nodup
    rw [heq] at hnd
    simp only [List.map_append, List.map_cons, List.append_assoc] at hnd
    have hnot := (List.nodup_cons.mp (List.nodup_append.mp hnd).2.1).1
    exact hnot (List.mem_append_left _ (List.mem_map.mpr ⟨x, hx, by rw [← hsame]⟩))

/-- SCHEME (timestamps): a history whose operations can be tagged is linearizable. -/
theorem linearizable_of_tags (ht : Tagging tag num init h ops) : Linearizable init h := by
  let r : ι × Call V → ι × Call V → Prop := fun x y => key tag num x ≤ key tag num y
  have : Std.Total r := ⟨fun x y => le_total (key tag num x) (key tag num y)⟩
  have : IsTrans (ι × Call V) r := ⟨fun x y z hxy hyz => le_trans hxy hyz⟩
  have hl : (ops.insertionSort r).Perm ops := List.perm_insertionSort r ops
  have hsort : (ops.insertionSort r).Pairwise r := List.pairwise_insertionSort r ops
  refine ⟨ops.insertionSort r, ?_, ?_, ?_, ?_, ?_, ?_⟩
  · exact (hl.map Prod.fst).nodup_iff.mpr ht.nodup
  · exact fun x hx => ht.invoked x (hl.mem_iff.mp hx)
  · intro o x hx
    obtain ⟨c, hc⟩ := ht.completed o x hx
    exact ⟨c, hl.mem_iff.mpr hc⟩
  · exact fun x hx => ht.pending x (hl.mem_iff.mp hx)
  · exact ht.realTime hl hsort
  · exact fun l₁ o l₂ heq x hx => ht.legal hl hsort heq hx

end tags

end AtomicDisk.Schemes
