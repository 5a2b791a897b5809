import AtomicDisk.Storage.SectorsManager
import AtomicDisk.Schemes.Run
import Mathlib.Logic.Function.Basic

/-! The sectors manager with crashes. A call of `write` makes its file system calls one by one, calls on
    distinct sectors interleave, and the process may crash between any two steps, also in recovery; what
    is in the directory survives, what is in memory does not.

        up ──begin/advance/fillPartly/return──▶ up        (write calls in progress, one for each sector)
         │ crash                                 ▲
         ▼                                       │ listing exhausted
        down ──restart (any listing)──▶ recovering ──recover──▶ recovering ──crash──▶ down

    Beside the state there is a ledger of what the callers of `write` know; no step of the manager reads
    it, and only `begin` is limited by it (tags of one sector strictly increase and are not (0, 0)). -/

namespace AtomicDisk.Storage
open Schemes

/-! ### A call of write, step by step -/

/-- How far a call of `write` has come. -/
inductive Stage where
  | begun
  /-- the temporary file is there, with some of the data -/
  | created
  /-- all the data is in the temporary file -/
  | filled
  | renamed
  /-- the map has the new tag; the old one was `old` -/
  | updated (old : UInt64 × UInt8)
  | removed
  deriving DecidableEq

/-- A call of `write` in progress. -/
structure Call where
  sector : Sector
  stage : Stage

/-- The next step of a call. -/
def Call.advance (c : Call) (idx : SectorIdx) (m : SectorsManagerState) :
    Option (SectorsManagerState × Call) :=
  let (data, ts, wr) := c.sector
  match c.stage with
  | .begun => some (⟨m.dir.create (sectoridxTmpFilePath idx ts wr), m.dataAccess⟩, ⟨c.sector, .created⟩)
  | .created =>
    some (⟨m.dir.fill (sectoridxTmpFilePath idx ts wr) data.data, m.dataAccess⟩, ⟨c.sector, .filled⟩)
  | .filled =>
    (m.dir.rename (sectoridxTmpFilePath idx ts wr) (sectoridxFilePath idx ts wr)).map fun dir =>
      (⟨dir, m.dataAccess⟩, ⟨c.sector, .renamed⟩)
  | .renamed =>
    (m.dir.lookup (sectoridxFilePath idx ts wr)).map fun _ =>
      (⟨m.dir, m.dataAccess.insert idx (ts, wr)⟩, ⟨c.sector, .updated (m.readMetadata idx)⟩)
  | .updated old =>
    if old ≠ (0, 0) then
      (m.dir.removeFile (sectoridxFilePath idx old.1 old.2)).map fun dir =>
        (⟨dir, m.dataAccess⟩, ⟨c.sector, .removed⟩)
    else some (m, ⟨c.sector, .removed⟩)
  | .removed => some (m, c)

/-- The steps of a call together are `write`. -/
theorem write_eq_advance (m : SectorsManagerState) (idx : SectorIdx) (s : Sector) :
    m.write idx s = ((((((Call.mk s .begun).advance idx m).bind fun r => r.2.advance idx r.1).bind
      fun r => r.2.advance idx r.1).bind fun r => r.2.advance idx r.1).bind
      fun r => r.2.advance idx r.1).map Prod.fst := by
  obtain ⟨data, ts, wr⟩ := s
  simp only [SectorsManagerState.write, Call.advance, Option.bind_some, Option.bind_eq_bind]
  cases ((m.dir.create (sectoridxTmpFilePath idx ts wr)).fill (sectoridxTmpFilePath idx ts wr)
      data.data).rename (sectoridxTmpFilePath idx ts wr) (sectoridxFilePath idx ts wr) with
  | none => rfl
  | some dir =>
    simp only [Option.map_some, Option.bind_some]
    cases dir.lookup (sectoridxFilePath idx ts wr) with
    | none => rfl
    | some c =>
      simp only [Option.map_some, Option.bind_some, SectorsManagerState.readMetadata]
      by_cases hold : (m.dataAccess.lookup idx).getD (0, 0) = (0, 0)
      · simp [hold]
      · simp [hold, Option.map_eq_bind, Option.bind_assoc]

/-! ### The machine -/

/-- What the process is doing. -/
inductive Phase where
  | up (dataAccess : DataAccess) (calls : SectorIdx → Option Call)
  | recovering (dataAccess : DataAccess) (remaining : List FileName)
  | down
  | panicked

/-- What the callers of `write` know about each sector. -/
structure Ledger where
  /-- the last write begun -/
  begun : SectorIdx → Option Sector
  /-- the last write that has returned -/
  completed : SectorIdx → Option Sector
  /-- the write in effect: the last one that has returned or, once a recovery has completed, the one
      it has found -/
  settled : SectorIdx → Option Sector
  /-- the write in progress at a crash, as long as no recovery has completed after it -/
  interrupted : SectorIdx → Option Sector

structure World where
  dir : Directory FileName
  phase : Phase
  ledger : Ledger

inductive Event where
  /-- `write` is called -/
  | begin (idx : SectorIdx) (sector : Sector)
  | advance (idx : SectorIdx)
  /-- the first `k` bytes of the data are in the temporary file -/
  | fillPartly (idx : SectorIdx) (k : ℕ)
  /-- `write` returns -/
  | return (idx : SectorIdx)
  | crash
  /-- `new` is called, and the directory is listed -/
  | restart (listing : List FileName)
  /-- the next name of the listing, or the end of it -/
  | recover

/-- The sector as the manager returns it: its tag, and what the file of that tag holds. -/
def found (m : SectorsManagerState) (idx : SectorIdx) : Option Sector :=
  (m.dataAccess.lookup idx).bind fun t =>
    (m.dir.lookup (sectoridxFilePath idx t.1 t.2)).map fun c => (⟨c⟩, t)

/-- One step. -/
def step (w : World) : Event → Option (World × Unit)
  | .begin idx s =>
    match w.phase with
    | .up dataAccess calls =>
      if (calls idx).isNone ∧ s.2 ≠ (0, 0) ∧ ∀ u ∈ w.ledger.begun idx, sectorTag u < sectorTag s then
        some ({ w with
          phase := .up dataAccess (Function.update calls idx (some ⟨s, .begun⟩))
          ledger := { w.ledger with begun := Function.update w.ledger.begun idx (some s) } }, ())
      else none
    | _ => none
  | .advance idx =>
    match w.phase with
    | .up dataAccess calls => (calls idx).map fun c =>
      match c.advance idx ⟨w.dir, dataAccess⟩ with
      | some (m, c') =>
        ({ w with dir := m.dir, phase := .up m.dataAccess (Function.update calls idx (some c')) }, ())
      | none => ({ w with phase := .panicked }, ())
    | _ => none
  | .fillPartly idx k =>
    match w.phase with
    | .up _ calls => (calls idx).bind fun c =>
      if c.stage = .created then
        some ({ w with
          dir := w.dir.fill (sectoridxTmpFilePath idx c.sector.2.1 c.sector.2.2)
            (c.sector.1.data.take k) }, ())
      else none
    | _ => none
  | .return idx =>
    match w.phase with
    | .up dataAccess calls => (calls idx).bind fun c =>
      if c.stage = .removed then
        some ({ w with
          phase := .up dataAccess (Function.update calls idx none)
          ledger := { w.ledger with
            completed := Function.update w.ledger.completed idx (some c.sector)
            settled := Function.update w.ledger.settled idx (some c.sector) } }, ())
      else none
    | _ => none
  | .crash =>
    match w.phase with
    | .up _ calls =>
      some ({ w with
        phase := .down
        ledger := { w.ledger with interrupted := fun idx => (calls idx).map Call.sector } }, ())
    | .recovering _ _ => some ({ w with phase := .down }, ())
    | _ => none
  | .restart listing =>
    match w.phase with
    | .down =>
      if listing.Perm w.dir.keys then some ({ w with phase := .recovering ∅ listing }, ()) else none
    | _ => none
  | .recover =>
    match w.phase with
    | .recovering dataAccess [] =>
      some ({ w with
        phase := .up dataAccess fun _ => none
        ledger := { w.ledger with
          settled := found ⟨w.dir, dataAccess⟩
          interrupted := fun _ => none } }, ())
    | .recovering dataAccess (fileName :: remaining) =>
      match recoverEntry w.dir dataAccess fileName with
      | some (dir, dataAccess) => some ({ w with dir, phase := .recovering dataAccess remaining }, ())
      | none => some ({ w with phase := .panicked }, ())
    | _ => none

/-- The steps, each with what it finds and the state it leaves. Proofs about runs split on these. -/
inductive Stepped : World → Event → World → Prop
  | begin {dir : Directory FileName} {dataAccess : DataAccess} {calls : SectorIdx → Option Call}
      {ledger : Ledger} {idx : SectorIdx} {s : Sector} :
      calls idx = none → s.2 ≠ (0, 0) → (∀ u ∈ ledger.begun idx, sectorTag u < sectorTag s) →
      Stepped ⟨dir, .up dataAccess calls, ledger⟩ (.begin idx s)
        ⟨dir, .up dataAccess (Function.update calls idx (some ⟨s, .begun⟩)),
          { ledger with begun := Function.update ledger.begun idx (some s) }⟩
  | advance {dir : Directory FileName} {dataAccess : DataAccess} {calls : SectorIdx → Option Call}
      {ledger : Ledger} {idx : SectorIdx} {c c' : Call} {m : SectorsManagerState} :
      calls idx = some c → c.advance idx ⟨dir, dataAccess⟩ = some (m, c') →
      Stepped ⟨dir, .up dataAccess calls, ledger⟩ (.advance idx)
        ⟨m.dir, .up m.dataAccess (Function.update calls idx (some c')), ledger⟩
  | advancePanics {dir : Directory FileName} {dataAccess : DataAccess}
      {calls : SectorIdx → Option Call} {ledger : Ledger} {idx : SectorIdx} {c : Call} :
      calls idx = some c → c.advance idx ⟨dir, dataAccess⟩ = none →
      Stepped ⟨dir, .up dataAccess calls, ledger⟩ (.advance idx) ⟨dir, .panicked, ledger⟩
  | fillPartly {dir : Directory FileName} {dataAccess : DataAccess} {calls : SectorIdx → Option Call}
      {ledger : Ledger} {idx : SectorIdx} {s : Sector} {k : ℕ} : calls idx = some ⟨s, .created⟩ →
      Stepped ⟨dir, .up dataAccess calls, ledger⟩ (.fillPartly idx k)
        ⟨dir.fill (sectoridxTmpFilePath idx s.2.1 s.2.2) (s.1.data.take k), .up dataAccess calls, ledger⟩
  | return {dir : Directory FileName} {dataAccess : DataAccess} {calls : SectorIdx → Option Call}
      {ledger : Ledger} {idx : SectorIdx} {s : Sector} : calls idx = some ⟨s, .removed⟩ →
      Stepped ⟨dir, .up dataAccess calls, ledger⟩ (.return idx)
        ⟨dir, .up dataAccess (Function.update calls idx none),
          { ledger with
            completed := Function.update ledger.completed idx (some s)
            settled := Function.update ledger.settled idx (some s) }⟩
  | crash {dir : Directory FileName} {dataAccess : DataAccess} {calls : SectorIdx → Option Call}
      {ledger : Ledger} : Stepped ⟨dir, .up dataAccess calls, ledger⟩ .crash
        ⟨dir, .down, { ledger with interrupted := fun idx => (calls idx).map Call.sector }⟩
  | crashAgain {dir : Directory FileName} {dataAccess : DataAccess} {remaining : List FileName}
      {ledger : Ledger} :
      Stepped ⟨dir, .recovering dataAccess remaining, ledger⟩ .crash ⟨dir, .down, ledger⟩
  | restart {dir : Directory FileName} {ledger : Ledger} {listing : List FileName} :
      listing.Perm dir.keys →
      Stepped ⟨dir, .down, ledger⟩ (.restart listing) ⟨dir, .recovering ∅ listing, ledger⟩
  | recovered {dir : Directory FileName} {dataAccess : DataAccess} {ledger : Ledger} :
      Stepped ⟨dir, .recovering dataAccess [], ledger⟩ .recover
        ⟨dir, .up dataAccess fun _ => none,
          { ledger with settled := found ⟨dir, dataAccess⟩, interrupted := fun _ => none }⟩
  | recover {dir dir' : Directory FileName} {dataAccess dataAccess' : DataAccess} {ledger : Ledger}
      {fileName : FileName} {remaining : List FileName} :
      recoverEntry dir dataAccess fileName = some (dir', dataAccess') →
      Stepped ⟨dir, .recovering dataAccess (fileName :: remaining), ledger⟩ .recover
        ⟨dir', .recovering dataAccess' remaining, ledger⟩
  | recoverPanics {dir : Directory FileName} {dataAccess : DataAccess} {ledger : Ledger}
      {fileName : FileName} {remaining : List FileName} :
      recoverEntry dir dataAccess fileName = none →
      Stepped ⟨dir, .recovering dataAccess (fileName :: remaining), ledger⟩ .recover
        ⟨dir, .panicked, ledger⟩

/-- Every step is one of those listed. -/
theorem step_stepped {w w' : World} {e : Event} (hs : step w e = some (w', ())) : Stepped w e w' := by
  obtain ⟨dir, phase, ledger⟩ := w
  cases phase with
  | up dataAccess calls =>
    cases e with
    | begin idx s =>
      simp only [step] at hs
      split at hs
      · rename_i hguard
        obtain ⟨rfl, -⟩ := Prod.mk.inj (Option.some.inj hs)
        exact .begin (by simpa using hguard.1) hguard.2.1 hguard.2.2
      · simp at hs
    | advance idx =>
      simp only [step] at hs
      obtain ⟨c, hc, hs⟩ := Option.map_eq_some_iff.mp hs
      split at hs
      · rename_i hadv
        obtain ⟨rfl, -⟩ := Prod.mk.inj hs
        exact .advance hc hadv
      · rename_i hadv
        obtain ⟨rfl, -⟩ := Prod.mk.inj hs
        exact .advancePanics hc hadv
    | fillPartly idx k =>
      simp only [step] at hs
      obtain ⟨⟨s, stage⟩, hc, hs⟩ := Option.bind_eq_some_iff.mp hs
      split at hs
      · rename_i hstage
        obtain rfl : stage = .created := hstage
        obtain ⟨rfl, -⟩ := Prod.mk.inj (Option.some.inj hs)
        exact .fillPartly hc
      · simp at hs
    | «return» idx =>
      simp only [step] at hs
      obtain ⟨⟨s, stage⟩, hc, hs⟩ := Option.bind_eq_some_iff.mp hs
      split at hs
      · rename_i hstage
        obtain rfl : stage = .removed := hstage
        obtain ⟨rfl, -⟩ := Prod.mk.inj (Option.some.inj hs)
        exact .return hc
      · simp at hs
    | crash =>
      obtain ⟨rfl, -⟩ := Prod.mk.inj (Option.some.inj hs)
      exact .crash
    | _ => simp [step] at hs
  | recovering dataAccess remaining =>
    cases e with
    | crash =>
      obtain ⟨rfl, -⟩ := Prod.mk.inj (Option.some.inj hs)
      exact .crashAgain
    | recover =>
      cases remaining with
      | nil =>
        obtain ⟨rfl, -⟩ := Prod.mk.inj (Option.some.inj hs)
        exact .recovered
      | cons fileName remaining =>
        simp only [step] at hs
        split at hs
        · rename_i hentry
          obtain ⟨rfl, -⟩ := Prod.mk.inj (Option.some.inj hs)
          exact .recover hentry
        · rename_i hentry
          obtain ⟨rfl, -⟩ := Prod.mk.inj (Option.some.inj hs)
          exact .recoverPanics hentry
    | _ => simp [step] at hs
  | down =>
    cases e with
    | restart listing =>
      simp only [step] at hs
      split at hs
      · rename_i hperm
        obtain ⟨rfl, -⟩ := Prod.mk.inj (Option.some.inj hs)
        exact .restart hperm
      · simp at hs
    | _ => simp [step] at hs
  | panicked => cases e <;> simp [step] at hs

/-- The rounds of an uninterrupted recovery together are `sectors_crash_recovery`. -/
theorem exec_recover (ledger : Ledger) {dir' : Directory FileName} {dataAccess' : DataAccess} :
    ∀ {listing : List FileName} {dir : Directory FileName} {dataAccess : DataAccess},
      listing.foldlM (fun s fileName => recoverEntry s.1 s.2 fileName) (dir, dataAccess) =
        some (dir', dataAccess') →
      ∃ tr, exec step ⟨dir, .recovering dataAccess listing, ledger⟩
        (List.replicate listing.length .recover) =
          some (tr, ⟨dir', .recovering dataAccess' [], ledger⟩)
  | [], dir, dataAccess, h => by
    obtain ⟨rfl, rfl⟩ : dir = dir' ∧ dataAccess = dataAccess' := by simpa using h
    exact ⟨[], rfl⟩
  | fileName :: listing, dir, dataAccess, h => by
    rw [List.foldlM_cons] at h
    obtain ⟨⟨dir₁, dataAccess₁⟩, hentry, h⟩ := Option.bind_eq_some_iff.mp h
    obtain ⟨tr, htr⟩ := exec_recover ledger h
    have hstep : step ⟨dir, .recovering dataAccess (fileName :: listing), ledger⟩ .recover =
        some (⟨dir₁, .recovering dataAccess₁ listing, ledger⟩, ()) := by simp_all [step]
    refine ⟨⟨⟨dir, .recovering dataAccess (fileName :: listing), ledger⟩, .recover, (),
      ⟨dir₁, .recovering dataAccess₁ listing, ledger⟩⟩ :: tr, ?_⟩
    simp only [List.length_cons, List.replicate_succ, exec, hstep, htr, Option.map_some]

/-- An empty directory, and nothing ever written. -/
def init : World where
  dir := ∅
  phase := .down
  ledger := ⟨fun _ => none, fun _ => none, fun _ => none, fun _ => none⟩

/-- Runs of the manager, with their traces. -/
abbrev StorageRun (tr : List (Entry World Event Unit)) (w : World) : Prop :=
  Run step (fun _ _ => True) init tr w

end AtomicDisk.Storage
