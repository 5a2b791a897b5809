import AtomicDisk.Domain
import Mathlib.Data.Prod.Lex
import Mathlib.Tactic.Common

/-! Tags: the pairs `(timestamp, write rank)` that order the values of a sector, compared
    lexicographically, as Rust compares tuples. -/

namespace AtomicDisk

/-- Pairs `(timestamp, write rank)` in the lexicographic order of Rust's tuples. -/
abbrev Tag := ℕ ×ₗ ℕ

/-- The tag of a timestamp and a write rank. -/
def tag (ts : UInt64) (wr : UInt8) : Tag := toLex (ts.toNat, wr.toNat)

/-- The tag a sector is stored under. -/
def sectorTag (s : SectorVec × UInt64 × UInt8) : Tag := tag s.2.1 s.2.2

@[simp] theorem sectorTag_mk (t : UInt64) (w : UInt8) (d : SectorVec) : sectorTag (d, t, w) = tag t w := rfl

theorem tag_lt_toNat {t t' : UInt64} {w w' : UInt8} : tag t w < tag t' w' ↔
    t.toNat < t'.toNat ∨ t.toNat = t'.toNat ∧ w.toNat < w'.toNat := by
  simp [tag, Prod.Lex.lt_iff]

theorem tag_lt {t t' : UInt64} {w w' : UInt8} :
    tag t w < tag t' w' ↔ t' > t ∨ t' = t ∧ w' > w := by
  simp only [tag, Prod.Lex.lt_iff, ofLex_toLex, gt_iff_lt, UInt64.lt_iff_toNat_lt,
    UInt8.lt_iff_toNat_lt, ← UInt64.toNat_inj]
  exact or_congr_right (and_congr_left fun _ => eq_comm)

theorem tag_le {t t' : UInt64} {w w' : UInt8} :
    tag t w ≤ tag t' w' ↔ ¬ (t > t' ∨ t = t' ∧ w > w') := by
  rw [← not_lt, tag_lt]

theorem tag_inj {t t' : UInt64} {w w' : UInt8} : tag t w = tag t' w' ↔ t = t' ∧ w = w' := by
  simp [tag, UInt64.toNat_inj, UInt8.toNat_inj]

theorem tag_zero_le (t : UInt64) (w : UInt8) : tag 0 0 ≤ tag t w := by
  rw [tag_le]
  simp

end AtomicDisk
