import AtomicDisk.Schemes.Directory
import AtomicDisk.Tag

/-! The sectors manager (`sectors_manager.rs`): one file for each sector, named by the sector's index and
    tag, written under a temporary name first, and a map in memory from sectors to tags.

        write:     tmp_idx_ts_wr ──fill──▶ ──rename──▶ idx_ts_wr    map[idx] := (ts, wr)    remove old
        recovery:  for each name:  three parts? the largest tag of its sector stays, all else goes

    A name is a list of characters; the directory of the manager is a `Directory`. `none` is a panic:
    a call refused by the operating system, or a name that does not parse. -/

namespace AtomicDisk.Storage
open Schemes

abbrev FileName := List Char

/-- What is written for a sector: its data, timestamp and write rank. -/
abbrev Sector := SectorVec × UInt64 × UInt8

/-- The map `data_access` of the manager. -/
abbrev DataAccess := HashMap SectorIdx (UInt64 × UInt8)

/-- The manager with the directory at its `path`. -/
structure SectorsManagerState where
  dir : Directory FileName
  dataAccess : DataAccess

/-! ### File names -/

/-- An unsigned number as `format!("{}", n)` prints it. -/
def decimal (n : ℕ) : List Char := Nat.toDigits 10 n

/-- `sectoridx_file_path`: `{idx}_{ts}_{wr}`. -/
def sectoridxFilePath (idx : SectorIdx) (ts : UInt64) (wr : UInt8) : FileName :=
  ['_'].intercalate [decimal idx.toNat, decimal ts.toNat, decimal wr.toNat]

/-- `sectoridx_tmp_file_path`: `tmp_{idx}_{ts}_{wr}`. -/
def sectoridxTmpFilePath (idx : SectorIdx) (ts : UInt64) (wr : UInt8) : FileName :=
  ['_'].intercalate [['t', 'm', 'p'], decimal idx.toNat, decimal ts.toNat, decimal wr.toNat]

/-- `str::parse` for an unsigned type with values below `bound`: an optional `+`, then digits. -/
def parseUnsigned (bound : ℕ) (s : List Char) : Option ℕ :=
  let digits := if s.head? = some '+' then s.tail else s
  if digits ≠ [] ∧ digits.all Char.isDigit ∧ Nat.ofDigitChars 10 digits 0 < bound then
    some (Nat.ofDigitChars 10 digits 0)
  else none

/-- `parse::<u64>()`. -/
def parseU64 (s : List Char) : Option UInt64 := (parseUnsigned (2 ^ 64) s).map UInt64.ofNat

/-- `parse::<u8>()`. -/
def parseU8 (s : List Char) : Option UInt8 := (parseUnsigned (2 ^ 8) s).map UInt8.ofNat

theorem isDigit_of_mem_decimal {n : ℕ} {c : Char} (h : c ∈ decimal n) : c.isDigit = true :=
  Nat.isDigit_of_mem_toDigits (by decide) (by decide) h

theorem underscore_notMem_decimal (n : ℕ) : '_' ∉ decimal n := fun h =>
  absurd (isDigit_of_mem_decimal h) (by decide)

/-- A printed number is read back. -/
theorem parseUnsigned_decimal {bound n : ℕ} (h : n < bound) : parseUnsigned bound (decimal n) = some n := by
  have hsign : (decimal n).head? ≠ some '+' := fun hplus =>
    absurd (isDigit_of_mem_decimal (List.mem_of_mem_head? hplus)) (by decide)
  have hall : (decimal n).all Char.isDigit = true :=
    List.all_eq_true.mpr fun c hc => isDigit_of_mem_decimal hc
  have hval : Nat.ofDigitChars 10 (decimal n) 0 = n :=
    Nat.ofDigitChars_toDigits (by decide) (by decide)
  rw [parseUnsigned, if_neg hsign, hval, if_pos ⟨Nat.toDigits_ne_nil, hall, h⟩]

@[simp] theorem parseU64_decimal (x : UInt64) : parseU64 (decimal x.toNat) = some x := by
  simp [parseU64, parseUnsigned_decimal x.toNat_lt]

@[simp] theorem parseU8_decimal (x : UInt8) : parseU8 (decimal x.toNat) = some x := by
  simp [parseU8, parseUnsigned_decimal x.toNat_lt]

@[simp] theorem splitOn_filePath (idx : SectorIdx) (ts : UInt64) (wr : UInt8) :
    (sectoridxFilePath idx ts wr).splitOn '_' =
      [decimal idx.toNat, decimal ts.toNat, decimal wr.toNat] := by
  refine List.splitOn_intercalate '_' (fun l hl => ?_) (by simp)
  simp only [List.mem_cons, List.not_mem_nil, or_false] at hl
  rcases hl with rfl | rfl | rfl <;> exact underscore_notMem_decimal _

@[simp] theorem splitOn_tmpFilePath (idx : SectorIdx) (ts : UInt64) (wr : UInt8) :
    (sectoridxTmpFilePath idx ts wr).splitOn '_' =
      [['t', 'm', 'p'], decimal idx.toNat, decimal ts.toNat, decimal wr.toNat] := by
  refine List.splitOn_intercalate '_' (fun l hl => ?_) (by simp)
  simp only [List.mem_cons, List.not_mem_nil, or_false] at hl
  rcases hl with rfl | rfl | rfl | rfl
  · decide
  all_goals exact underscore_notMem_decimal _

theorem decimal_inj {a b : ℕ} (h : decimal a = decimal b) : a = b := by
  have hread : ∀ n, Nat.ofDigitChars 10 (decimal n) 0 = n := fun n =>
    Nat.ofDigitChars_toDigits (by decide) (by decide)
  rw [← hread a, h, hread b]

/-- A file name tells the sector and the tag. -/
theorem filePath_inj {i j : SectorIdx} {t u : UInt64} {w v : UInt8} :
    sectoridxFilePath i t w = sectoridxFilePath j u v ↔ i = j ∧ t = u ∧ w = v := by
  constructor
  · intro h
    have hparts := congrArg (List.splitOn '_') h
    simp only [splitOn_filePath, List.cons.injEq, and_true] at hparts
    exact ⟨UInt64.toNat_inj.mp (decimal_inj hparts.1), UInt64.toNat_inj.mp (decimal_inj hparts.2.1),
      UInt8.toNat_inj.mp (decimal_inj hparts.2.2)⟩
  · rintro ⟨rfl, rfl, rfl⟩; rfl

theorem tmpFilePath_inj {i j : SectorIdx} {t u : UInt64} {w v : UInt8} :
    sectoridxTmpFilePath i t w = sectoridxTmpFilePath j u v ↔ i = j ∧ t = u ∧ w = v := by
  constructor
  · intro h
    have hparts := congrArg (List.splitOn '_') h
    simp only [splitOn_tmpFilePath, List.cons.injEq, and_true, true_and] at hparts
    exact ⟨UInt64.toNat_inj.mp (decimal_inj hparts.1), UInt64.toNat_inj.mp (decimal_inj hparts.2.1),
      UInt8.toNat_inj.mp (decimal_inj hparts.2.2)⟩
  · rintro ⟨rfl, rfl, rfl⟩; rfl

/-- No file has the name of a temporary one. -/
theorem filePath_ne_tmp {i j : SectorIdx} {t u : UInt64} {w v : UInt8} :
    sectoridxFilePath i t w ≠ sectoridxTmpFilePath j u v := by
  intro h
  have hparts := congrArg (List.splitOn '_') h
  simp at hparts

/-! ### Recovery -/

/-- One round of the loop of `sectors_crash_recovery`. -/
def recoverEntry (dir : Directory FileName) (dataAccess : DataAccess) (fileName : FileName) :
    Option (Directory FileName × DataAccess) :=
  match fileName.splitOn '_' with
  | [sidxPart, tsPart, wrPart] => do
    let sidx ← parseU64 sidxPart
    let ts ← parseU64 tsPart
    let wr ← parseU8 wrPart
    let (oldTs, oldWr) := (dataAccess.lookup sidx).getD (0, 0)
    if (oldTs, oldWr) = (0, 0) then
      some (dir, dataAccess.insert sidx (ts, wr))
    else if ts > oldTs ∨ ts = oldTs ∧ wr > oldWr then
      let dir ← dir.removeFile (sectoridxFilePath sidx oldTs oldWr)
      some (dir, dataAccess.insert sidx (ts, wr))
    else
      let dir ← dir.removeFile fileName
      some (dir, dataAccess)
  | _ => do
    let dir ← dir.removeFile fileName
    some (dir, dataAccess)

/-- `sectors_crash_recovery` on the names a directory listing returns. -/
def sectorsCrashRecovery (dir : Directory FileName) (listing : List FileName) :
    Option (Directory FileName × DataAccess) :=
  listing.foldlM (fun s fileName => recoverEntry s.1 s.2 fileName) (dir, ∅)

/-- `SectorsManagerState::new`. -/
def SectorsManagerState.new (dir : Directory FileName) (listing : List FileName) :
    Option SectorsManagerState :=
  (sectorsCrashRecovery dir listing).map fun s => ⟨s.1, s.2⟩

/-! ### Reading and writing -/

/-- `read_metadata`. -/
def SectorsManagerState.readMetadata (m : SectorsManagerState) (idx : SectorIdx) : UInt64 × UInt8 :=
  (m.dataAccess.lookup idx).getD (0, 0)

/-- `read_data`. -/
def SectorsManagerState.readData (m : SectorsManagerState) (idx : SectorIdx) : Option SectorVec :=
  match m.dataAccess.lookup idx with
  | some (ts, wr) => (m.dir.readExact (sectoridxFilePath idx ts wr) 4096).map SectorVec.mk
  | none => some .zeros

/-- `write`. -/
def SectorsManagerState.write (m : SectorsManagerState) (idx : SectorIdx) (sector : Sector) :
    Option SectorsManagerState := do
  let (data, ts, wr) := sector
  let filePath := sectoridxFilePath idx ts wr
  let tmpFilePath := sectoridxTmpFilePath idx ts wr
  let dir := m.dir.create tmpFilePath
  let dir := dir.fill tmpFilePath data.data
  let dir ← dir.rename tmpFilePath filePath
  let _ ← dir.lookup filePath
  let (oldTs, oldWr) := (m.dataAccess.lookup idx).getD (0, 0)
  let dataAccess := m.dataAccess.insert idx (ts, wr)
  if (oldTs, oldWr) ≠ (0, 0) then
    let dir ← dir.removeFile (sectoridxFilePath idx oldTs oldWr)
    some ⟨dir, dataAccess⟩
  else
    some ⟨dir, dataAccess⟩

end AtomicDisk.Storage
