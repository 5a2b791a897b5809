import AtomicDisk.Storage.WriteSteps

/-! Recovery after a crash. At a crash every file of a sector is that of the write in effect or of the
    interrupted one (`Recoverable`). Recovery goes through the listing name by name (`Scanned`):

        temporary file                      ──▶ removed
        first file of its sector            ──▶ its tag goes into the map
        later file than the one in the map  ──▶ the one in the map is removed, and the tag replaced
        earlier file                        ──▶ removed

    so a file of a sector is removed only while a later one stays. -/

namespace AtomicDisk.Storage
open Schemes

variable {dir dir' : Directory FileName} {idx : SectorIdx} {t : UInt64 × UInt8}
  {file tmp : UInt64 × UInt8 → Option (List UInt8)} {entry : Option (UInt64 × UInt8)}
  {settled : Option Sector} {s : Sector} {m : SectorsManagerState}

/-! ### After a crash -/

/-- Every file of the sector is that of the write in effect or of the interrupted one, which is later;
    and the file of the former is there, or that of the latter. -/
structure Recoverable (file : UInt64 × UInt8 → Option (List UInt8)) (settled interrupted : Option Sector) :
    Prop where
  files : ∀ t c, file t = some c → ∃ u, (u ∈ settled ∨ u ∈ interrupted) ∧ u.2 = t ∧ u.1.data = c
  kept : ∀ u ∈ settled, file u.2 = some u.1.data ∨ ∃ v ∈ interrupted, file v.2 = some v.1.data
  later : ∀ v ∈ interrupted, ∀ u ∈ settled, sectorTag u < sectorTag v

variable {interrupted : Option Sector} {call : Option Call}

theorem mem_present {u : Sector} (h : u ∈ present settled call) :
    u ∈ settled ∨ u ∈ call.map Call.sector := by
  unfold present at h
  split at h
  · rcases List.mem_append.mp h with h | h
    · exact Or.inl (Option.mem_toList.mp h)
    · exact Or.inr (by simp [List.mem_singleton.mp h])
  · rcases List.mem_append.mp h with h | h
    · exact Or.inl (Option.mem_toList.mp h)
    · exact Or.inr (by simp [List.mem_singleton.mp h])
  · exact Or.inr (by simp [List.mem_singleton.mp h])
  · exact Or.inl (Option.mem_toList.mp h)

/-- The write in effect is present, unless its file has been removed after that of the next one has
    appeared. -/
theorem present_kept {u : Sector} (hu : u ∈ settled) :
    u ∈ present settled call ∨ ∃ v ∈ call.map Call.sector, v ∈ present settled call := by
  unfold present
  split
  · exact Or.inl (List.mem_append_left _ (Option.mem_toList.mpr hu))
  · exact Or.inl (List.mem_append_left _ (Option.mem_toList.mpr hu))
  · exact Or.inr ⟨_, rfl, List.mem_singleton_self _⟩
  · exact Or.inl (Option.mem_toList.mpr hu)

/-- At a crash the call in progress becomes the interrupted write. -/
theorem Kept.recoverable (h : Kept file tmp entry settled call) :
    Recoverable file settled (call.map Call.sector) := by
  refine ⟨fun t c ht => ?_, fun u hu => ?_, fun v hv u hu => ?_⟩
  · obtain ⟨u, hu, hut⟩ := (h.files t c).mp ht
    exact ⟨u, mem_present hu, hut⟩
  · rcases present_kept hu with hu | ⟨v, hv, hpres⟩
    · exact Or.inl ((h.files _ _).mpr ⟨u, hu, rfl, rfl⟩)
    · exact Or.inr ⟨v, hv, (h.files _ _).mpr ⟨v, hpres, rfl, rfl⟩⟩
  · obtain ⟨k, hk, rfl⟩ := Option.map_eq_some_iff.mp hv
    exact h.later k hk u hu

/-- Removing a file while a later one of the sector is there loses nothing. -/
theorem Recoverable.remove (h : Recoverable file settled interrupted) {t t' : UInt64 × UInt8}
    (hlt : tag t.1 t.2 < tag t'.1 t'.2) {c' : List UInt8} (ht' : file t' = some c') :
    Recoverable (Function.update file t none) settled interrupted := by
  have hne : t' ≠ t := by rintro rfl; exact lt_irrefl _ hlt
  refine ⟨fun u c hu => ?_, fun u hu => ?_, h.later⟩
  · rw [Function.update_apply] at hu
    split at hu
    · simp at hu
    · exact h.files u c hu
  · -- the later file is that of the interrupted write, unless the one in effect is the later
    obtain ⟨x, hx, rfl, rfl⟩ := h.files t' c' ht'
    rcases hx with hx | hx
    · obtain rfl : u = x := Option.mem_unique hu hx
      left
      rw [Function.update_of_ne hne]
      exact ht'
    · right
      exact ⟨x, hx, by rw [Function.update_of_ne hne]; exact ht'⟩

/-! ### Recovery -/

/-- How far recovery has come: the names still to be looked at are there, and of those looked at just
    the files whose tags are in the map. -/
structure Scanned (dir : Directory FileName) (dataAccess : DataAccess) (remaining : List FileName) :
    Prop where
  nodup : remaining.Nodup
  ahead : ∀ n ∈ remaining, ∃ c, dir.lookup n = some c
  behind : ∀ n c, dir.lookup n = some c → n ∈ remaining ∨
    ∃ idx t, n = sectoridxFilePath idx t.1 t.2 ∧ dataAccess.lookup idx = some t
  entries : ∀ idx t, dataAccess.lookup idx = some t → t ≠ (0, 0) ∧
    sectoridxFilePath idx t.1 t.2 ∉ remaining ∧ ∃ c, fileAt dir idx t = some c

theorem recoverEntry_file (dir : Directory FileName) (dataAccess : DataAccess) (idx : SectorIdx)
    (t : UInt64 × UInt8) : recoverEntry dir dataAccess (sectoridxFilePath idx t.1 t.2) =
      if (dataAccess.lookup idx).getD (0, 0) = (0, 0) then some (dir, dataAccess.insert idx t)
      else if tag ((dataAccess.lookup idx).getD (0, 0)).1 ((dataAccess.lookup idx).getD (0, 0)).2 <
          tag t.1 t.2 then
        (dir.removeFile (sectoridxFilePath idx ((dataAccess.lookup idx).getD (0, 0)).1
          ((dataAccess.lookup idx).getD (0, 0)).2)).map fun dir => (dir, dataAccess.insert idx t)
      else (dir.removeFile (sectoridxFilePath idx t.1 t.2)).map fun dir => (dir, dataAccess) := by
  simp only [recoverEntry, splitOn_filePath, parseU64_decimal, parseU8_decimal, Option.bind_eq_bind,
    Option.bind_some, tag_lt, Option.map_eq_bind, Function.comp_def]

theorem recoverEntry_tmp (dir : Directory FileName) (dataAccess : DataAccess) (idx : SectorIdx)
    (ts : UInt64) (wr : UInt8) : recoverEntry dir dataAccess (sectoridxTmpFilePath idx ts wr) =
      (dir.removeFile (sectoridxTmpFilePath idx ts wr)).map fun dir => (dir, dataAccess) := by
  simp only [recoverEntry, splitOn_tmpFilePath, Option.bind_eq_bind, Option.map_eq_bind,
    Function.comp_def]

variable {dataAccess dataAccess' : DataAccess} {n : FileName} {remaining : List FileName}

/-- The next name is removed. -/
theorem Scanned.drop (h : Scanned dir dataAccess (n :: remaining))
    (hrem : dir.removeFile n = some dir') : Scanned dir' dataAccess remaining := by
  obtain ⟨hn, hnodup⟩ := List.nodup_cons.mp h.nodup
  refine ⟨hnodup, fun n' hn' => ?_, fun n' c hc => ?_, fun idx t ht => ?_⟩
  · obtain ⟨c, hc⟩ := h.ahead n' (List.mem_cons_of_mem _ hn')
    refine ⟨c, ?_⟩
    rw [Directory.lookup_removeFile hrem, if_neg (by rintro rfl; exact hn hn')]
    exact hc
  · rw [Directory.lookup_removeFile hrem] at hc
    split at hc
    · simp at hc
    · rename_i hne
      exact (h.behind n' c hc).imp_left fun hmem => (List.mem_cons.mp hmem).resolve_left hne
  · obtain ⟨hnz, hmem, c, hc⟩ := h.entries idx t ht
    rw [List.mem_cons, not_or] at hmem
    refine ⟨hnz, hmem.2, c, ?_⟩
    rw [fileAt, Directory.lookup_removeFile hrem, if_neg hmem.1]
    exact hc

/-- The tag of the next name goes into the map; a file of its sector that the map has named is not there any
    more, and the others are. -/
theorem Scanned.enter (h : Scanned dir dataAccess (sectoridxFilePath idx t.1 t.2 :: remaining))
    (hnz : t ≠ (0, 0))
    (hgone : ∀ n c, dir'.lookup n = some c → dir.lookup n = some c ∧
      ∀ u, dataAccess.lookup idx = some u → n ≠ sectoridxFilePath idx u.1 u.2)
    (hahead : ∀ n ∈ sectoridxFilePath idx t.1 t.2 :: remaining, dir'.lookup n = dir.lookup n)
    (hothers : ∀ j, j ≠ idx → fileAt dir' j = fileAt dir j) :
    Scanned dir' (dataAccess.insert idx t) remaining := by
  obtain ⟨hn, hnodup⟩ := List.nodup_cons.mp h.nodup
  refine ⟨hnodup, fun n' hn' => ?_, fun n' c hc => ?_, fun j u hu => ?_⟩
  · rw [hahead n' (List.mem_cons_of_mem _ hn')]
    exact h.ahead n' (List.mem_cons_of_mem _ hn')
  · obtain ⟨hold, hne⟩ := hgone n' c hc
    rcases h.behind n' c hold with hmem | ⟨j, u, hju, hu⟩
    · rcases List.mem_cons.mp hmem with rfl | hmem
      · exact Or.inr ⟨idx, t, rfl, AList.lookup_insert _⟩
      · exact Or.inl hmem
    · refine Or.inr ⟨j, u, hju, ?_⟩
      rw [AList.lookup_insert_ne (by rintro rfl; exact hne u hu hju)]
      exact hu
  · rcases eq_or_ne j idx with rfl | hj
    · rw [AList.lookup_insert] at hu
      obtain rfl := Option.some.inj hu
      obtain ⟨c, hc⟩ := h.ahead _ (List.mem_cons_self ..)
      exact ⟨hnz, hn, c, (hahead _ (List.mem_cons_self ..)).trans hc⟩
    · rw [AList.lookup_insert_ne hj] at hu
      obtain ⟨hnz', hmem, c, hc⟩ := h.entries j u hu
      refine ⟨hnz', fun h => hmem (List.mem_cons_of_mem _ h), c, ?_⟩
      rw [hothers j hj]
      exact hc

/-- The next name is the first file of its sector. -/
theorem Scanned.insert (h : Scanned dir dataAccess (sectoridxFilePath idx t.1 t.2 :: remaining))
    (hnone : dataAccess.lookup idx = none) (hnz : t ≠ (0, 0)) :
    Scanned dir (dataAccess.insert idx t) remaining := by
  refine h.enter hnz (fun n c hc => ⟨hc, fun u hu => ?_⟩) (fun _ _ => rfl) fun _ _ => rfl
  rw [hnone] at hu
  cases hu

/-- The next name is a later file of its sector, and the one before it is removed. -/
theorem Scanned.replace (h : Scanned dir dataAccess (sectoridxFilePath idx t.1 t.2 :: remaining))
    {old : UInt64 × UInt8} (hold : dataAccess.lookup idx = some old) (hnz : t ≠ (0, 0))
    (hrem : dir.removeFile (sectoridxFilePath idx old.1 old.2) = some dir') :
    Scanned dir' (dataAccess.insert idx t) remaining := by
  obtain ⟨-, hbehind, -⟩ := h.entries idx old hold
  refine h.enter hnz (fun n c hc => ?_) (fun n hn => ?_) fun j hj => ?_
  · rw [Directory.lookup_removeFile hrem] at hc
    split at hc
    · simp at hc
    · rename_i hne
      refine ⟨hc, fun u hu => ?_⟩
      obtain rfl : old = u := Option.some.inj (hold.symm.trans hu)
      exact hne
  · rw [Directory.lookup_removeFile hrem, if_neg (by rintro rfl; exact hbehind hn)]
  · rw [fileAt_removeFile hrem, if_neg hj]

theorem recoverable_removeFile {settled interrupted : SectorIdx → Option Sector} {t' : UInt64 × UInt8}
    {c' : List UInt8} (hrec : ∀ j, Recoverable (fileAt dir j) (settled j) (interrupted j))
    (hrem : dir.removeFile (sectoridxFilePath idx t.1 t.2) = some dir')
    (hlt : tag t.1 t.2 < tag t'.1 t'.2) (ht' : fileAt dir idx t' = some c') (j : SectorIdx) :
    Recoverable (fileAt dir' j) (settled j) (interrupted j) := by
  rw [fileAt_removeFile hrem]
  rcases eq_or_ne j idx with rfl | hj
  · rw [if_pos rfl]
    exact (hrec j).remove hlt ht'
  · rw [if_neg hj]
    exact hrec j

/-- One round of recovery does not panic, and keeps what makes the sectors recoverable. -/
theorem Scanned.next {settled interrupted : SectorIdx → Option Sector}
    (h : Scanned dir dataAccess (n :: remaining)) (hnamed : Named dir)
    (hrec : ∀ idx, Recoverable (fileAt dir idx) (settled idx) (interrupted idx))
    (hnz : ∀ idx u, u ∈ settled idx ∨ u ∈ interrupted idx → u.2 ≠ (0, 0)) :
    ∃ dir' dataAccess', recoverEntry dir dataAccess n = some (dir', dataAccess') ∧
      Scanned dir' dataAccess' remaining ∧ Named dir' ∧
      ∀ idx, Recoverable (fileAt dir' idx) (settled idx) (interrupted idx) := by
  obtain ⟨c, hc⟩ := h.ahead n (List.mem_cons_self ..)
  obtain ⟨idx, ts, wr, rfl | rfl⟩ := hnamed n c hc
  · rw [recoverEntry_file dir dataAccess idx (ts, wr)]
    have hfile : fileAt dir idx (ts, wr) = some c := hc
    have htnz : (ts, wr) ≠ ((0, 0) : UInt64 × UInt8) := by
      obtain ⟨u, hu, hut, -⟩ := (hrec idx).files (ts, wr) c hfile
      rw [← hut]
      exact hnz idx u hu
    cases hold : dataAccess.lookup idx with
    | none =>
      simp only [Option.getD_none, if_true]
      exact ⟨dir, _, rfl, h.insert hold htnz, hnamed, hrec⟩
    | some old =>
      obtain ⟨honz, hbehind, co, hco⟩ := h.entries idx old hold
      simp only [Option.getD_some, if_neg honz]
      by_cases hlt : tag old.1 old.2 < tag (ts, wr).1 (ts, wr).2
      · rw [if_pos hlt]
        rw [fileAt] at hco
        obtain ⟨dir', hrem⟩ := Directory.removeFile_isSome hco
        exact ⟨dir', dataAccess.insert idx (ts, wr), by rw [hrem]; rfl, h.replace hold htnz hrem,
          hnamed.removeFile hrem, recoverable_removeFile hrec hrem hlt hfile⟩
      · rw [if_neg hlt]
        obtain ⟨dir', hrem⟩ := Directory.removeFile_isSome hc
        have hlt' : tag ts wr < tag old.1 old.2 := by
          refine lt_of_le_of_ne (not_lt.mp hlt) fun heq => hbehind ?_
          obtain ⟨rfl, rfl⟩ := tag_inj.mp heq
          exact List.mem_cons_self ..
        exact ⟨dir', dataAccess, by rw [hrem]; rfl, h.drop hrem, hnamed.removeFile hrem,
          recoverable_removeFile (t := (ts, wr)) hrec hrem hlt' hco⟩
  · -- a temporary file is removed
    rw [recoverEntry_tmp]
    obtain ⟨dir', hrem⟩ := Directory.removeFile_isSome hc
    refine ⟨dir', dataAccess, by rw [hrem]; rfl, h.drop hrem, hnamed.removeFile hrem, fun j => ?_⟩
    have hfile : fileAt dir' j = fileAt dir j := by
      funext u
      rw [fileAt, Directory.lookup_removeFile hrem, if_neg filePath_ne_tmp, fileAt]
    rw [hfile]
    exact hrec j

/-! ### The end of recovery -/

/-- At the end of recovery the map has the tags of exactly the files that are there. -/
theorem Scanned.file_iff (h : Scanned dir dataAccess []) (idx : SectorIdx) (t : UInt64 × UInt8) :
    (∃ c, fileAt dir idx t = some c) ↔ dataAccess.lookup idx = some t := by
  constructor
  · rintro ⟨c, hc⟩
    rcases h.behind _ c hc with hmem | ⟨j, u, hju, hu⟩
    · simp at hmem
    · obtain ⟨rfl, h₁, h₂⟩ := filePath_inj.mp hju
      obtain rfl : t = u := Prod.ext h₁ h₂
      exact hu
  · intro ht
    exact (h.entries idx t ht).2.2

/-- What recovery finds is the write in effect or the interrupted one. -/
theorem found_cases (h : Scanned dir dataAccess [])
    (hrec : Recoverable (fileAt dir idx) settled interrupted) :
    found ⟨dir, dataAccess⟩ idx = settled ∨ ∃ v ∈ interrupted, found ⟨dir, dataAccess⟩ idx = some v := by
  cases ht : dataAccess.lookup idx with
  | none =>
    left
    have hfound : found ⟨dir, dataAccess⟩ idx = none := by simp [found, ht]
    have hnofile : ∀ t c, fileAt dir idx t ≠ some c := by
      intro t c hc
      have := (h.file_iff idx t).mp ⟨c, hc⟩
      simp [ht] at this
    rw [hfound]
    cases settled with
    | none => rfl
    | some u =>
      rcases hrec.kept u rfl with hu | ⟨v, -, hv⟩
      · exact absurd hu (hnofile _ _)
      · exact absurd hv (hnofile _ _)
  | some t =>
    obtain ⟨c, hc⟩ := (h.file_iff idx t).mpr ht
    obtain ⟨u, hu, rfl, rfl⟩ := hrec.files t c hc
    have hfound : found ⟨dir, dataAccess⟩ idx = some u := by
      rw [fileAt] at hc
      simp [found, ht, hc]
    rcases hu with hu | hu
    · exact Or.inl (hfound.trans hu.symm)
    · exact Or.inr ⟨u, hu, hfound⟩

theorem found_data (h : found m idx = some s) :
    m.dataAccess.lookup idx = some s.2 ∧ fileAt m.dir idx s.2 = some s.1.data := by
  obtain ⟨t, ht, hs⟩ := Option.bind_eq_some_iff.mp h
  obtain ⟨c, hc, rfl⟩ := Option.map_eq_some_iff.mp hs
  exact ⟨ht, hc⟩

/-- After recovery the manager is in order, with nothing in progress. -/
theorem Scanned.keptIn (h : Scanned dir dataAccess []) (idx : SectorIdx) :
    KeptIn ⟨dir, dataAccess⟩ idx (found ⟨dir, dataAccess⟩ idx) none := by
  refine ⟨fun t c => ?_, fun t c ht => ?_, by simp, ?_, by simp, by simp⟩
  · simp only [present, Option.mem_toList]
    constructor
    · intro hc
      have ht := (h.file_iff idx t).mp ⟨c, hc⟩
      have hc' : dir.lookup (sectoridxFilePath idx t.1 t.2) = some c := hc
      exact ⟨(⟨c⟩, t), by simp [found, ht, hc'], rfl, rfl⟩
    · rintro ⟨u, hu, rfl, rfl⟩
      exact (found_data hu).2
  · rcases h.behind _ c ht with hmem | ⟨j, u, hju, -⟩
    · simp at hmem
    · exact absurd hju.symm filePath_ne_tmp
  · cases ht : dataAccess.lookup idx with
    | none => simp [mapped, found, ht]
    | some t =>
      obtain ⟨c, hc⟩ := (h.file_iff idx t).mpr ht
      rw [fileAt] at hc
      simp [mapped, found, ht, hc]

end AtomicDisk.Storage
