import AtomicDisk.Schemes.Stream

/-! Fixed-size buffers with a cursor. `store` and `load` are bounds-checked: an access outside the buffer
    is `none`. A buffer that is filled from the front is described by its `front`, the items before the
    cursor; what lies behind the cursor is left over from earlier use.

        │ front b off │ l │ left over │        front (store b off l) (off + |l|) = front b off ++ l -/

namespace AtomicDisk.Schemes

variable {B : Type} {n off k : ℕ} {l : List B} {b b' : Block B n}

/-- Items written at an offset. -/
def Block.store (b : Block B n) (off : ℕ) (l : List B) : Option (Block B n) :=
  if h : off + l.length ≤ n then
    some ⟨b.items.take off ++ (l ++ b.items.drop (off + l.length)), by
      have hsize := b.size
      simp only [List.length_append, List.length_take, List.length_drop]
      omega⟩
  else none

/-- `k` items read at an offset. -/
def Block.load (b : Block B n) (off k : ℕ) : Option (List B) :=
  if off + k ≤ n then some ((b.items.drop off).take k) else none

/-- One item changed in place. -/
def Block.modify (b : Block B n) (i : ℕ) (f : B → B) : Option (Block B n) :=
  if i < n then some ⟨b.items.modify i f, by rw [List.length_modify, b.size]⟩ else none

/-- The items before the cursor. -/
def Block.front (b : Block B n) (off : ℕ) : List B := b.items.take off

theorem Block.front_length (b : Block B n) (h : off ≤ n) : (b.front off).length = off := by
  rw [Block.front, List.length_take_of_le (b.size.symm ▸ h)]

theorem Block.front_front (b : Block B n) (h : k ≤ off) : (b.front off).take k = b.front k := by
  rw [Block.front, List.take_take, min_eq_left h, Block.front]

theorem Block.modify_isSome {i : ℕ} (b : Block B n) (f : B → B) (h : i < n) :
    ∃ b', b.modify i f = some b' := ⟨_, if_pos h⟩

theorem Block.modify_eq_none {i : ℕ} (b : Block B n) (f : B → B) (h : n ≤ i) : b.modify i f = none :=
  if_neg (by omega)

/-- A store at the cursor moves the front on. -/
theorem Block.store_front (b : Block B n) (h : off + l.length ≤ n) :
    ∃ b', b.store off l = some b' ∧ b'.front (off + l.length) = b.front off ++ l ∧
      ∀ k ≤ off, b'.front k = b.front k := by
  have htake : (b.items.take off).length = off := b.front_length (by omega)
  refine ⟨_, dif_pos h, ?_, fun k hk => ?_⟩
  · simp only [Block.front]
    rw [← List.append_assoc, List.take_append_of_le_length (by rw [List.length_append, htake]),
      List.take_of_length_le (by rw [List.length_append, htake])]
  · simp only [Block.front]
    rw [List.take_append_of_le_length (by rw [htake]; exact hk), List.take_take, min_eq_left hk]

/-- What is read in front of the cursor. -/
theorem Block.load_front {m : ℕ} (b : Block B n) (hm : m ≤ n) (h : off + k ≤ m) :
    b.load off k = some (((b.front m).drop off).take k) := by
  rw [Block.load, if_pos (by omega), Block.front, List.drop_take, List.take_take,
    min_eq_left (by omega)]

/-- What is read in a known beginning of the buffer. -/
theorem Block.load_of_isPrefix {m : ℕ} {p : List B} (hm : m ≤ n) (hp : p <+: b.front m)
    (h : off + k ≤ p.length) : b.load off k = some ((p.drop off).take k) := by
  have hle := hp.length_le
  rw [b.front_length hm] at hle
  obtain ⟨t, ht⟩ := hp
  rw [b.load_front hm (h.trans hle), ← ht, List.drop_append_of_le_length (by omega),
    List.take_append_of_le_length (by rw [List.length_drop]; omega)]

end AtomicDisk.Schemes
