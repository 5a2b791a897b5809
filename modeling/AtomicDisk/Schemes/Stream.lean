import Mathlib.Data.List.Infix
import Mathlib.Order.Bounds.Basic
import Mathlib.Tactic.Common
import Mathlib.Tactic.Ring

/-! Reading from a finite stream. A `Reader` takes items from the front of the stream or fails:

        readExact n      [x₁ … xₙ | rest] ──▶ (x₁ … xₙ, rest)       fails on a shorter stream
        slide marker w   window w over the stream, one item at a time, until it shows the marker

    `slide` stops behind the first occurrence of the marker (`afterFirst`). Where no end of the marker is
    a beginning of it, noise in front of a marker does not hide it. Numbers are read and written with the
    most significant byte first. -/

namespace AtomicDisk.Schemes

variable {B ε α β : Type}

/-- A computation that reads from a stream of `B` and may fail. -/
abbrev Reader (B ε : Type) := StateT (List B) (Except ε)

/-- Exactly `n` items, an array of fixed length. -/
structure Block (B : Type) (n : ℕ) where
  items : List B
  size : items.length = n
  deriving DecidableEq

def Block.get {n : ℕ} (b : Block B n) (i : Fin n) : B := b.items.get (i.cast b.size.symm)

namespace Reader

/-- The next `n` items, or the failure `eof`. -/
def readExact (eof : ε) (n : ℕ) : Reader B ε (Block B n) := fun s =>
  if h : n ≤ s.length then .ok (⟨s.take n, List.length_take_of_le h⟩, s.drop n) else .error eof

theorem bind_ok {r : Reader B ε α} {f : α → Reader B ε β} {s s' : List B} {a : α}
    (h : r s = .ok (a, s')) : (r >>= f) s = f a s' := by
  simp [bind, StateT.bind, Except.bind, h]

theorem bind_error {r : Reader B ε α} {f : α → Reader B ε β} {s : List B} {e : ε}
    (h : r s = .error e) : (r >>= f) s = .error e := by
  simp [bind, StateT.bind, Except.bind, h]

/-- What a sequence returns, its second part returns where the first ends. -/
theorem bind_eq_ok {r : Reader B ε α} {f : α → Reader B ε β} {s rest : List B} {b : β}
    (h : (r >>= f) s = .ok (b, rest)) : ∃ a s', r s = .ok (a, s') ∧ f a s' = .ok (b, rest) := by
  cases hr : r s with
  | error e =>
    rw [bind_error hr] at h
    cases h
  | ok p =>
    rw [bind_ok hr] at h
    exact ⟨p.1, p.2, rfl, h⟩

/-- What is in front of the stream is read. -/
theorem readExact_append {eof : ε} {n : ℕ} (l rest : List B) (h : l.length = n) :
    readExact eof n (l ++ rest) = .ok (⟨l, h⟩, rest) := by
  subst h
  simp [readExact]

/-- What is read first was in front of the stream. -/
theorem readExact_bind_eq_ok {eof : ε} {n : ℕ} {f : Block B n → Reader B ε β} {s rest : List B} {b : β}
    (h : (readExact eof n >>= f) s = .ok (b, rest)) : ∃ a s', s = a.items ++ s' ∧ f a s' = .ok (b, rest) := by
  obtain ⟨a, s', hread, hf⟩ := bind_eq_ok h
  unfold readExact at hread
  split at hread
  · obtain ⟨rfl, rfl⟩ := Prod.mk.inj (Except.ok.inj hread)
    exact ⟨_, _, (List.take_append_drop n s).symm, hf⟩
  · cases hread

theorem readExact_short {eof : ε} {n : ℕ} {s : List B} (h : s.length < n) :
    readExact eof n s = .error eof := by
  simp [readExact, h]

/-- Every failure of the reader is `e`. -/
def FailsOnly (e : ε) (r : Reader B ε α) : Prop := ∀ s e', r s = .error e' → e' = e

/-- Everything the reader returns satisfies `P`. -/
def Yields (P : α → Prop) (r : Reader B ε α) : Prop := ∀ s a rest, r s = .ok (a, rest) → P a

theorem Yields.pure {P : α → Prop} {a : α} (ha : P a) : Yields P (Pure.pure a : Reader B ε α) := by
  intro s a' rest h
  obtain ⟨rfl, -⟩ := Prod.mk.inj (Except.ok.inj h)
  exact ha

theorem Yields.throw {P : α → Prop} (e : ε) : Yields P (throw e : Reader B ε α) := by
  intro s a rest h
  cases h

theorem Yields.any (r : Reader B ε α) : Yields (fun _ => True) r := fun _ _ _ _ => trivial

theorem Yields.bind {P : α → Prop} {Q : β → Prop} {r : Reader B ε α} {f : α → Reader B ε β}
    (hr : Yields P r) (hf : ∀ a, P a → Yields Q (f a)) : Yields Q (r >>= f) := by
  intro s b rest h
  cases hs : r s with
  | error e =>
    rw [bind_error hs] at h
    cases h
  | ok p =>
    rw [bind_ok hs] at h
    exact hf p.1 (hr s p.1 p.2 hs) p.2 b rest h

/-- What the reader takes from the stream decides what it returns, and it leaves the rest alone. -/
def Framed (r : Reader B ε α) : Prop :=
  ∀ s a rest, r s = .ok (a, rest) → ∃ frame, s = frame ++ rest ∧ ∀ t, r (frame ++ t) = .ok (a, t)

theorem Framed.pure (a : α) : Framed (Pure.pure a : Reader B ε α) := by
  intro s a' rest h
  obtain ⟨rfl, rfl⟩ := Prod.mk.inj (Except.ok.inj h)
  exact ⟨[], rfl, fun t => rfl⟩

theorem Framed.throw (e : ε) : Framed (throw e : Reader B ε α) := by
  intro s a rest h
  cases h

theorem Framed.readExact (eof : ε) (n : ℕ) : Framed (Reader.readExact eof n : Reader B ε (Block B n)) := by
  intro s b rest h
  unfold Reader.readExact at h
  split at h
  · rename_i hle
    obtain ⟨rfl, rfl⟩ := Prod.mk.inj (Except.ok.inj h)
    exact ⟨s.take n, (List.take_append_drop n s).symm, fun t => readExact_append _ t _⟩
  · cases h

theorem Framed.bind {r : Reader B ε α} {f : α → Reader B ε β} (hr : Framed r) (hf : ∀ a, Framed (f a)) :
    Framed (r >>= f) := by
  intro s b rest h
  cases hs : r s with
  | error e =>
    rw [bind_error hs] at h
    cases h
  | ok p =>
    obtain ⟨a, s'⟩ := p
    rw [bind_ok hs] at h
    obtain ⟨frame₁, rfl, hfirst⟩ := hr s a s' hs
    obtain ⟨frame₂, rfl, hsecond⟩ := hf a s' b rest h
    refine ⟨frame₁ ++ frame₂, (List.append_assoc ..).symm, fun t => ?_⟩
    rw [List.append_assoc, bind_ok (hfirst (frame₂ ++ t)), hsecond]

/-- The reader takes exactly `n` items, whatever they are, and fails with `eof` if there are fewer. -/
def Takes (eof : ε) (n : ℕ) (r : Reader B ε α) : Prop :=
  ∀ s, (n ≤ s.length → ∃ a, r s = .ok (a, s.drop n)) ∧ (s.length < n → r s = .error eof)

theorem Takes.pure (eof : ε) (a : α) : Takes eof 0 (Pure.pure a : Reader B ε α) := by
  intro s
  exact ⟨fun _ => ⟨a, rfl⟩, fun h => absurd h (Nat.not_lt_zero _)⟩

theorem Takes.readExact (eof : ε) (n : ℕ) : Takes eof n (Reader.readExact eof n : Reader B ε (Block B n)) := by
  intro s
  refine ⟨fun h => ?_, readExact_short⟩
  rw [Reader.readExact, dif_pos h]
  exact ⟨_, rfl⟩

theorem Takes.bind {eof : ε} {n m : ℕ} {r : Reader B ε α} {f : α → Reader B ε β} (hr : Takes eof n r)
    (hf : ∀ a, Takes eof m (f a)) : Takes eof (n + m) (r >>= f) := by
  intro s
  rcases lt_or_ge s.length n with hlt | hle
  · refine ⟨fun h => by omega, fun _ => ?_⟩
    exact bind_error ((hr s).2 hlt)
  · obtain ⟨a, ha⟩ := (hr s).1 hle
    rw [bind_ok ha, ← List.drop_drop]
    have hdrop : (s.drop n).length = s.length - n := List.length_drop
    refine ⟨fun h => (hf a (s.drop n)).1 (by omega), fun h => (hf a (s.drop n)).2 (by omega)⟩

theorem Takes.failsOnly {eof : ε} {n : ℕ} {r : Reader B ε α} (h : Takes eof n r) : FailsOnly eof r := by
  intro s e herr
  rcases lt_or_ge s.length n with hlt | hle
  · rw [(h s).2 hlt] at herr
    exact (Except.error.inj herr).symm
  · obtain ⟨a, ha⟩ := (h s).1 hle
    rw [ha] at herr
    cases herr

/-- The reader is put together of `readExact`, and reads `n` items in all. -/
inductive Reads (eof : ε) : {α : Type} → ℕ → Reader B ε α → Prop
  | pure {α : Type} (a : α) : Reads eof 0 (Pure.pure a)
  | readExact (n : ℕ) : Reads eof n (Reader.readExact eof n)
  | bind {α β : Type} {n m : ℕ} {r : Reader B ε α} {f : α → Reader B ε β} :
      Reads eof n r → (∀ a, Reads eof m (f a)) → Reads eof (n + m) (r >>= f)

theorem Reads.framed {eof : ε} {n : ℕ} {r : Reader B ε α} (h : Reads eof n r) : Framed r := by
  induction h with
  | pure a => exact .pure a
  | readExact n => exact .readExact eof n
  | bind _ _ hr hf => exact .bind hr hf

theorem Reads.takes {eof : ε} {n : ℕ} {r : Reader B ε α} (h : Reads eof n r) : Takes eof n r := by
  induction h with
  | pure a => exact .pure eof a
  | readExact n => exact .readExact eof n
  | bind _ _ hr hf => exact .bind hr hf

end Reader

/-! ### Finding a marker -/

section marker

variable [DecidableEq B]

/-- Move a window over the stream until it shows the marker: what is behind it. -/
def slide (marker : List B) : List B → List B → Option (List B)
  | window, [] => if window = marker then some [] else none
  | window, b :: s => if window = marker then some (b :: s) else slide marker (window.drop 1 ++ [b]) s

/-- What is behind the first occurrence of the marker. -/
def afterFirst (marker : List B) : List B → Option (List B)
  | [] => if marker = [] then some [] else none
  | b :: s => if marker <+: b :: s then some ((b :: s).drop marker.length) else afterFirst marker s

variable {marker : List B}

theorem afterFirst_of_isPrefix {s : List B} (h : marker <+: s) :
    afterFirst marker s = some (s.drop marker.length) := by
  cases s with
  | nil =>
    obtain rfl := List.prefix_nil.mp h
    rfl
  | cons b s => rw [afterFirst, if_pos h]

theorem afterFirst_short {s : List B} (h : s.length < marker.length) : afterFirst marker s = none := by
  induction s with
  | nil =>
    rw [afterFirst, if_neg]
    rintro rfl
    simp at h
  | cons b s ih =>
    rw [afterFirst, if_neg]
    · exact ih (by simp only [List.length_cons] at h; omega)
    · intro hpre
      have hle := hpre.length_le
      omega

/-- The sliding window stops behind the first occurrence of the marker. -/
theorem slide_eq_afterFirst {window s : List B} (hw : window.length = marker.length)
    (hm : marker ≠ []) : slide marker window s = afterFirst marker (window ++ s) := by
  induction s generalizing window with
  | nil =>
    rw [slide, List.append_nil]
    split
    · rename_i heq
      rw [heq, afterFirst_of_isPrefix (List.prefix_refl _), List.drop_length]
    · rename_i hne
      cases window with
      | nil => exact absurd (List.length_eq_zero_iff.mp hw.symm) hm
      | cons x window =>
        rw [afterFirst, if_neg fun hpre => hne (hpre.eq_of_length hw.symm).symm]
        exact (afterFirst_short (by simp only [List.length_cons] at hw; omega)).symm
  | cons b s ih =>
    rw [slide]
    split
    · rename_i heq
      rw [heq, afterFirst_of_isPrefix (List.prefix_append _ _), List.drop_left]
    · rename_i hne
      cases window with
      | nil => exact absurd (List.length_eq_zero_iff.mp hw.symm) hm
      | cons x window =>
        have hpre : ¬ marker <+: x :: window ++ b :: s := by
          intro hpre
          have heq := List.prefix_of_prefix_length_le hpre (List.prefix_append _ _) hw.ge
          exact hne (heq.eq_of_length hw.symm).symm
        rw [List.cons_append] at hpre ⊢
        rw [afterFirst, if_neg hpre, List.drop_one, List.tail_cons, ih]
        · simp
        · simpa using hw

/-- The window takes a frame from the stream. -/
theorem slide_framed {window s rest : List B} (h : slide marker window s = some rest) :
    ∃ frame, s = frame ++ rest ∧ ∀ t, slide marker window (frame ++ t) = some t := by
  induction s generalizing window with
  | nil =>
    rw [slide] at h
    split at h
    · rename_i heq
      obtain rfl := Option.some.inj h
      refine ⟨[], rfl, fun t => ?_⟩
      cases t <;> rw [List.nil_append, slide, if_pos heq]
    · cases h
  | cons b s ih =>
    rw [slide] at h
    split at h
    · rename_i heq
      obtain rfl := Option.some.inj h
      refine ⟨[], rfl, fun t => ?_⟩
      cases t <;> rw [List.nil_append, slide, if_pos heq]
    · rename_i hne
      obtain ⟨frame, rfl, hframe⟩ := ih h
      refine ⟨b :: frame, rfl, fun t => ?_⟩
      rw [List.cons_append, slide, if_neg hne, hframe]

/-- Noise without the marker in front of a marker whose first item is not repeated in it. -/
theorem afterFirst_noise {m : B} {ms noise : List B} (rest : List B) (hm : m ∉ ms)
    (hnoise : ¬ m :: ms <:+: noise) :
    afterFirst (m :: ms) (noise ++ (m :: ms ++ rest)) = some rest := by
  induction noise with
  | nil => rw [List.nil_append, afterFirst_of_isPrefix (List.prefix_append _ _), List.drop_left]
  | cons x noise ih =>
    rw [List.cons_append, afterFirst, if_neg]
    · exact ih fun h => hnoise (h.trans (List.suffix_cons x noise).isInfix)
    · intro hpre
      rcases le_or_gt (m :: ms).length (x :: noise).length with hle | hlt
      · -- the occurrence is within the noise
        have := List.prefix_of_prefix_length_le hpre (List.prefix_append (x :: noise) _) hle
        exact hnoise this.isInfix
      · -- it reaches into the marker, so the marker's first item is in its tail
        obtain ⟨t, ht⟩ := List.prefix_of_prefix_length_le (List.prefix_append (x :: noise) _) hpre hlt.le
        cases t with
        | nil =>
          rw [List.append_nil] at ht
          rw [ht] at hlt
          exact lt_irrefl _ hlt
        | cons y t =>
          have hy : x :: noise ++ y :: t <+: x :: noise ++ (m :: ms ++ rest) := by
            rw [ht]
            exact hpre
          obtain rfl : y = m :=
            (List.cons_prefix_cons.mp ((List.prefix_append_right_inj (x :: noise)).mp hy)).1
          obtain ⟨-, htail⟩ := List.cons.inj ht
          exact hm (htail ▸ List.mem_append_right _ (List.mem_cons_self ..))

/-- The first occurrence is the one with the least offset. -/
theorem afterFirst_least {s rest : List B} (h : afterFirst marker s = some rest) :
    ∃ i, IsLeast {i | marker <+: s.drop i} i ∧ s.drop i = marker ++ rest := by
  induction s with
  | nil =>
    rw [afterFirst] at h
    split at h
    · rename_i heq
      obtain rfl := Option.some.inj h
      refine ⟨0, ⟨?_, fun j _ => Nat.zero_le j⟩, ?_⟩
      · subst heq
        exact List.nil_prefix
      · subst heq
        rfl
    · cases h
  | cons b s ih =>
    rw [afterFirst] at h
    split at h
    · rename_i hpre
      obtain rfl := Option.some.inj h
      exact ⟨0, ⟨hpre, fun j _ => Nat.zero_le j⟩, (List.prefix_iff_eq_append.mp hpre).symm⟩
    · rename_i hpre
      obtain ⟨i, ⟨hi, hleast⟩, hdrop⟩ := ih h
      refine ⟨i + 1, ⟨hi, fun j hj => ?_⟩, hdrop⟩
      cases j with
      | zero => exact absurd hj hpre
      | succ j => exact Nat.succ_le_succ (hleast hj)

theorem afterFirst_of_least {s rest : List B} {i : ℕ} (hi : IsLeast {i | marker <+: s.drop i} i)
    (hdrop : s.drop i = marker ++ rest) : afterFirst marker s = some rest := by
  induction s generalizing i with
  | nil =>
    rw [List.drop_nil] at hdrop
    obtain ⟨rfl, rfl⟩ := List.append_eq_nil_iff.mp hdrop.symm
    rfl
  | cons b s ih =>
    cases i with
    | zero =>
      have hpre : marker <+: b :: s := hi.1
      rw [List.drop_zero] at hdrop
      rw [afterFirst_of_isPrefix hpre, hdrop, List.drop_left]
    | succ i =>
      have hleast : ∀ j, marker <+: (b :: s).drop j → i + 1 ≤ j := fun j hj => hi.2 hj
      have hpre : ¬ marker <+: b :: s := fun hpre => absurd (hleast 0 hpre) (Nat.not_succ_le_zero i)
      rw [afterFirst, if_neg hpre]
      exact ih ⟨hi.1, fun j hj => Nat.le_of_succ_le_succ (hleast (j + 1) hj)⟩ hdrop

theorem afterFirst_length {s rest : List B} (h : afterFirst marker s = some rest) :
    rest.length + marker.length ≤ s.length := by
  induction s with
  | nil =>
    rw [afterFirst] at h
    split at h
    · rename_i heq
      simp_all
    · simp at h
  | cons b s ih =>
    rw [afterFirst] at h
    split at h
    · rename_i hpre
      obtain rfl := Option.some.inj h
      have hle := hpre.length_le
      rw [List.length_drop]
      omega
    · have := ih h
      simp only [List.length_cons]
      omega

end marker

/-! ### Numbers -/

/-- The last `k` bytes of a number, most significant first. -/
def toBytes : ℕ → ℕ → List UInt8
  | 0, _ => []
  | k + 1, x => toBytes k (x / 256) ++ [UInt8.ofNat x]

/-- The number with the given bytes. -/
def ofBytes (l : List UInt8) : ℕ := l.foldl (fun x b => x * 256 + b.toNat) 0

@[simp] theorem toBytes_length (k x : ℕ) : (toBytes k x).length = k := by
  induction k generalizing x with
  | zero => rfl
  | succ k ih => simp [toBytes, ih]

theorem ofBytes_toBytes (k x : ℕ) : ofBytes (toBytes k x) = x % 256 ^ k := by
  induction k generalizing x with
  | zero => simp [toBytes, ofBytes, Nat.mod_one]
  | succ k ih =>
    have hx : ofBytes (toBytes (k + 1) x) = ofBytes (toBytes k (x / 256)) * 256 + x % 256 := by
      simp [ofBytes, toBytes]
    rw [hx, ih, pow_succ', Nat.mod_mul, mul_comm, add_comm]

theorem toBytes_ofBytes (l : List UInt8) : toBytes l.length (ofBytes l) = l := by
  induction l using List.reverseRecOn with
  | nil => rfl
  | append_singleton l b ih =>
    have hof : ofBytes (l ++ [b]) = ofBytes l * 256 + b.toNat := by simp [ofBytes]
    have hb : b.toNat < 256 := b.toNat_lt
    have hdiv : (ofBytes l * 256 + b.toNat) / 256 = ofBytes l := by omega
    have hlast : UInt8.ofNat (ofBytes l * 256 + b.toNat) = b := by
      apply UInt8.toNat_inj.mp
      rw [UInt8.toNat_ofNat']
      omega
    rw [hof, List.length_append, List.length_singleton, toBytes, hdiv, ih, hlast]

theorem ofBytes_lt (l : List UInt8) : ofBytes l < 256 ^ l.length := by
  have hval := ofBytes_toBytes l.length (ofBytes l)
  rw [toBytes_ofBytes] at hval
  rw [hval]
  exact Nat.mod_lt _ (Nat.pow_pos (by decide))

/-! ### Items that do not matter -/

/-- The list from position `off` on, with `b` at the positions of `pad`. -/
def blank (b : B) (pad : List ℕ) (off : ℕ) (l : List B) : List B :=
  l.mapIdx fun j x => if off + j ∈ pad then b else x

@[simp] theorem blank_length (b : B) (pad : List ℕ) (off : ℕ) (l : List B) :
    (blank b pad off l).length = l.length := List.length_mapIdx

theorem blank_append (b : B) (pad : List ℕ) (off : ℕ) (l l' : List B) :
    blank b pad off (l ++ l') = blank b pad off l ++ blank b pad (off + l.length) l' := by
  simp only [blank, List.mapIdx_append, Nat.add_assoc]
  simp only [Nat.add_comm]

/-- Nothing is replaced outside the positions. -/
theorem blank_eq_self (b : B) {pad : List ℕ} {off n : ℕ} {l : List B} (hl : l.length = n)
    (h : ∀ p ∈ pad, p < off ∨ off + n ≤ p) : blank b pad off l = l := by
  refine List.ext_getElem (blank_length ..) fun j hj hj' => ?_
  simp only [blank, List.getElem_mapIdx]
  rw [if_neg]
  intro hmem
  have := h _ hmem
  omega

theorem getElem?_blank (b : B) (pad : List ℕ) (l : List B) (j : ℕ) :
    (blank b pad 0 l)[j]? = l[j]?.map fun x => if j ∈ pad then b else x := by
  rw [blank, List.getElem?_mapIdx]
  simp

end AtomicDisk.Schemes
