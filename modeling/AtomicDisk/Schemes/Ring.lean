import Mathlib.Data.BitVec
import Mathlib.Data.List.Perm.Basic
import Mathlib.Logic.Equiv.Basic
import Mathlib.Logic.Function.Basic
import Mathlib.Tactic.Common

/-! A ring of `2 ^ w` slots whose positions are counters of `w` bits that wrap. The slots in use are those
    from one position up to another, as many as the distance between the two:

              start                end
        ┄┄┄┄┄┄┬────┬────┬────┬────┬┄┄┄┄┄       gap start end = 4
              │ a₀ │ a₁ │ a₂ │ a₃ │            window r start 4 = [a₀, a₁, a₂, a₃]
        ┄┄┄┄┄┄┴────┴────┴────┴────┴┄┄┄┄┄

    An item is put in at the end, and any item can be taken out: the one at the start moves to its slot, and
    the start moves on. -/

namespace AtomicDisk.Schemes.Ring

variable {w : ℕ} {α : Type} {r : BitVec w → α} {start stop p q : BitVec w} {j k n : ℕ}

/-- How far a position is behind another. -/
def gap (start p : BitVec w) : ℕ := (p - start).toNat

/-- The position `k` slots on. -/
def slot (start : BitVec w) (k : ℕ) : BitVec w := start + BitVec.ofNat w k

/-- The items in `n` slots. -/
def window (r : BitVec w → α) (start : BitVec w) (n : ℕ) : List α := (List.range n).map fun k => r (slot start k)

/-- An item is taken out of the slot `p`, and left behind at the start. -/
def swapOut (r : BitVec w → α) (start p : BitVec w) : BitVec w → α :=
  Function.update (Function.update r p (r start)) start (r p)

theorem swapOut_eq_swap (r : BitVec w → α) (start p q : BitVec w) :
    swapOut r start p q = r (Equiv.swap start p q) := by
  rw [swapOut, Equiv.swap_apply_def, Function.update_apply, Function.update_apply]
  split
  · rfl
  · split <;> rfl

/-! ### Positions -/

theorem gap_lt (start p : BitVec w) : gap start p < 2 ^ w := (p - start).isLt

@[simp] theorem gap_self (p : BitVec w) : gap p p = 0 := by simp [gap]

@[simp] theorem slot_gap (start p : BitVec w) : slot start (gap start p) = p := by
  rw [slot, gap, BitVec.ofNat_toNat, BitVec.setWidth_eq, add_sub_cancel]

theorem gap_slot (hk : k < 2 ^ w) : gap start (slot start k) = k := by
  rw [gap, slot, add_sub_cancel_left, BitVec.toNat_ofNat, Nat.mod_eq_of_lt hk]

@[simp] theorem slot_zero (start : BitVec w) : slot start 0 = start := by simp [slot]

theorem slot_inj (hj : j < 2 ^ w) (hk : k < 2 ^ w) (h : slot start j = slot start k) : j = k := by
  have hgap := congrArg (gap start) h
  rwa [gap_slot hj, gap_slot hk] at hgap

theorem slot_succ (start : BitVec w) (k : ℕ) : slot start (k + 1) = slot (start + 1) k := by
  rw [slot, slot, BitVec.ofNat_add, add_assoc, add_comm (BitVec.ofNat w k)]
  rfl

theorem gap_eq_zero : gap start p = 0 ↔ start = p := by
  constructor
  · intro h
    rw [← slot_gap start p, h, slot_zero]
  · rintro rfl
    exact gap_self _

theorem slot_add_one (start : BitVec w) (k : ℕ) : slot start k + 1 = slot start (k + 1) := by
  rw [slot, slot, BitVec.ofNat_add, add_assoc]
  rfl

/-- The end moves on, unless the ring is then full. -/
theorem gap_succ (h : p + 1 ≠ start) : gap start (p + 1) = gap start p + 1 := by
  have hslot : p + 1 = slot start (gap start p + 1) := by rw [← slot_add_one, slot_gap]
  rcases Nat.lt_or_eq_of_le (Nat.succ_le_of_lt (gap_lt start p)) with hlt | heq
  · rw [hslot, gap_slot hlt]
  · -- a whole turn leads back to the start
    refine absurd ?_ h
    have hturn : BitVec.ofNat w (2 ^ w) = 0 := BitVec.eq_of_toNat_eq (by rw [BitVec.toNat_ofNat, Nat.mod_self]; rfl)
    rw [hslot, show gap start p + 1 = 2 ^ w from heq, slot, hturn, add_zero]

/-- A position in front of another moves on. -/
theorem gap_succ_of_lt (h : gap start p < gap start q) : gap start (p + 1) = gap start p + 1 := by
  refine gap_succ fun hstart => ?_
  have hslot : slot start (gap start p + 1) = slot start 0 := by
    rw [← slot_add_one, slot_gap, hstart, slot_zero]
  have hlt := gap_lt start q
  have hzero : gap start p + 1 = 0 := slot_inj (by omega) (by omega) hslot
  omega

/-- The distance between two positions in a window. -/
theorem gap_of_le (h : gap start p ≤ gap start q) : gap p q = gap start q - gap start p := by
  have hsub : q - p = (q - start) - (p - start) := (sub_sub_sub_cancel_right q p start).symm
  rw [gap, hsub, BitVec.toNat_sub_of_le (BitVec.le_def.mpr h)]
  rfl

/-- The start moves on, in a window that is not empty. -/
theorem gap_start_succ (h : start ≠ p) : gap start p = gap (start + 1) p + 1 := by
  obtain ⟨k, hk⟩ : ∃ k, gap start p = k + 1 :=
    Nat.exists_eq_succ_of_ne_zero fun h0 => h (gap_eq_zero.mp h0)
  have hlt := gap_lt start p
  have hslot : slot (start + 1) k = p := by rw [← slot_succ, ← hk, slot_gap]
  rw [hk, ← hslot, gap_slot (by omega)]

theorem gap_start_succ_of_lt (h : k < gap start p) : gap start p = gap (start + 1) p + 1 := by
  refine gap_start_succ fun heq => ?_
  rw [gap_eq_zero.mpr heq] at h
  omega

/-! ### Windows -/

@[simp] theorem window_length (r : BitVec w → α) (start : BitVec w) (n : ℕ) : (window r start n).length = n := by
  simp [window]

theorem mem_window {a : α} : a ∈ window r start n ↔ ∃ k < n, r (slot start k) = a := by
  simp [window]

theorem window_concat (r : BitVec w → α) (start : BitVec w) (n : ℕ) :
    window r start (n + 1) = window r start n ++ [r (slot start n)] := by
  rw [window, List.range_succ, List.map_append, List.map_singleton, window]

/-- Changing a slot behind the window leaves it. -/
theorem window_update (hn : n ≤ gap start p) (a : α) :
    window (Function.update r p a) start n = window r start n := by
  refine List.map_congr_left fun k hk => Function.update_of_ne ?_ a r
  rintro rfl
  have hlt := List.mem_range.mp hk
  have hk' : k < 2 ^ w := lt_of_lt_of_le hlt (hn.trans (gap_lt _ _).le)
  rw [gap_slot hk'] at hn
  omega

/-- An item is put in at the end. -/
theorem window_push (r : BitVec w → α) (start p : BitVec w) (a : α) :
    window (Function.update r p a) start (gap start p + 1) = window r start (gap start p) ++ [a] := by
  rw [window_concat, window_update le_rfl, slot_gap, Function.update_self]

/-- In a list without repetitions, `x` takes the place of the image of `i`. -/
theorem cons_map_perm_update {l : List ℕ} (hl : l.Nodup) {i : ℕ} (hi : i ∈ l) (f : ℕ → α) (x : α) :
    (x :: l.map f).Perm (f i :: l.map (Function.update f i x)) := by
  have hperm : l.Perm (i :: l.erase i) := List.perm_cons_erase hi
  have hrest : (l.erase i).map (Function.update f i x) = (l.erase i).map f := by
    refine List.map_congr_left fun j hj => Function.update_of_ne ?_ x f
    rintro rfl
    exact hl.not_mem_erase hj
  have hnew : (l.map (Function.update f i x)).Perm (x :: (l.erase i).map f) := by
    have h := hperm.map (Function.update f i x)
    rwa [List.map_cons, Function.update_self, hrest] at h
  have hold : (x :: l.map f).Perm (x :: f i :: (l.erase i).map f) := (hperm.map f).cons x
  exact (hold.trans (.swap ..)).trans (hnew.symm.cons _)

theorem window_succ (r : BitVec w → α) (start : BitVec w) (n : ℕ) :
    window r start (n + 1) = r start :: window r (start + 1) n := by
  rw [window, List.range_succ_eq_map, List.map_cons, List.map_map, slot_zero, window]
  simp only [Function.comp_def, slot_succ]

theorem window_succ_swapOut (hk : k < n + 1) (hn : n + 1 ≤ 2 ^ w) :
    (window r start (n + 1)).Perm (r (slot start k) :: window (swapOut r start (slot start k)) (start + 1) n) := by
  rw [window_succ]
  cases k with
  | zero => rw [slot_zero, swapOut, Function.update_eq_self, Function.update_eq_self]
  | succ k =>
    have hwindow : window (swapOut r start (slot start (k + 1))) (start + 1) n =
        (List.range n).map (Function.update (fun j => r (slot (start + 1) j)) k (r start)) := by
      refine List.map_congr_left fun j hj => ?_
      have hj' := List.mem_range.mp hj
      have hstart : slot start (j + 1) ≠ start := by
        intro h
        have h0 : slot start (j + 1) = slot start 0 := by rw [h, slot_zero]
        have heq : j + 1 = 0 := slot_inj (by omega) (by omega) h0
        omega
      rw [← slot_succ, swapOut, Function.update_of_ne hstart]
      by_cases hjk : j = k
      · rw [hjk, Function.update_self, Function.update_self]
      · rw [Function.update_of_ne hjk, Function.update_of_ne, slot_succ]
        intro h
        have heq : j + 1 = k + 1 := slot_inj (by omega) (by omega) h
        omega
    rw [hwindow, slot_succ]
    exact cons_map_perm_update List.nodup_range (List.mem_range.mpr (by omega)) (fun j => r (slot (start + 1) j)) _

/-- An item is taken out of the window, whatever its place in it. -/
theorem window_swapOut (hk : k < gap start p) : (window r start (gap start p)).Perm
    (r (slot start k) :: window (swapOut r start (slot start k)) (start + 1) (gap (start + 1) p)) := by
  have hgap := gap_start_succ_of_lt hk
  have hlt := gap_lt start p
  rw [hgap]
  exact window_succ_swapOut (by omega) (by omega)

end AtomicDisk.Schemes.Ring
