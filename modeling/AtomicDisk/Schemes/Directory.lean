import AtomicDisk.Schemes.Collections
import Mathlib.Algebra.Order.Ring.Nat

/-! A directory of files: a finite map from names to contents, with the calls a program makes on it.
    A call that the operating system refuses (no such file, not enough bytes) is `none`. Each call has
    one lemma that says what the directory holds under every name afterwards. -/

namespace AtomicDisk.Schemes

/-- A directory with names of type `N`. -/
abbrev Directory (N : Type) := HashMap N (List UInt8)

namespace Directory

variable {N : Type} [DecidableEq N] {d d' : Directory N} {a b n : N} {c : List UInt8}

/-- `File::create`: an empty file, in place of what was there. -/
def create (d : Directory N) (n : N) : Directory N := d.insert n []

/-- What has been written to an open file becomes its contents. -/
def fill (d : Directory N) (n : N) (bytes : List UInt8) : Directory N := d.insert n bytes

/-- `rename`: replaces a file of the new name. -/
def rename (d : Directory N) (a b : N) : Option (Directory N) :=
  (d.lookup a).map fun c => (d.erase a).insert b c

/-- `remove_file`. -/
def removeFile (d : Directory N) (n : N) : Option (Directory N) :=
  (d.lookup n).map fun _ => d.erase n

/-- `File::open` and `read_exact` of `k` bytes. -/
def readExact (d : Directory N) (n : N) (k : ℕ) : Option (List UInt8) :=
  (d.lookup n).bind fun c => if k ≤ c.length then some (c.take k) else none

theorem lookup_create : (d.create a).lookup n = if n = a then some [] else d.lookup n := by
  by_cases h : n = a
  · rw [if_pos h, h, create, AList.lookup_insert]
  · rw [if_neg h, create, AList.lookup_insert_ne h]

theorem lookup_fill : (d.fill a c).lookup n = if n = a then some c else d.lookup n := by
  by_cases h : n = a
  · rw [if_pos h, h, fill, AList.lookup_insert]
  · rw [if_neg h, fill, AList.lookup_insert_ne h]

theorem rename_isSome (h : d.lookup a = some c) : ∃ d', d.rename a b = some d' := by
  exact ⟨_, by rw [rename, h]; rfl⟩

theorem lookup_rename (h : d.rename a b = some d') :
    d'.lookup n = if n = b then d.lookup a else if n = a then none else d.lookup n := by
  obtain ⟨c, hc, rfl⟩ := Option.map_eq_some_iff.mp h
  by_cases hb : n = b
  · rw [if_pos hb, hb, AList.lookup_insert, hc]
  · rw [if_neg hb, AList.lookup_insert_ne hb]
    by_cases ha : n = a
    · rw [if_pos ha, ha, AList.lookup_erase]
    · rw [if_neg ha, AList.lookup_erase_ne ha]

theorem removeFile_eq_none : d.removeFile a = none ↔ d.lookup a = none := by
  simp [removeFile]

theorem removeFile_isSome (h : d.lookup a = some c) : ∃ d', d.removeFile a = some d' := by
  exact ⟨_, by rw [removeFile, h]; rfl⟩

theorem lookup_removeFile (h : d.removeFile a = some d') :
    d'.lookup n = if n = a then none else d.lookup n := by
  obtain ⟨c, -, rfl⟩ := Option.map_eq_some_iff.mp h
  by_cases ha : n = a
  · rw [if_pos ha, ha, AList.lookup_erase]
  · rw [if_neg ha, AList.lookup_erase_ne ha]

theorem readExact_full (h : d.lookup n = some c) : d.readExact n c.length = some c := by
  simp [readExact, h]

end Directory

end AtomicDisk.Schemes
