import AtomicDisk.Storage.SectorsManager

/-! The sectors manager as a map from sectors to their last write. A write removes the file named by the
    tag the sector had before; if that is the tag just written, it removes the data it has stored. So
    the manager is such a map exactly for the sequences of writes in which no write repeats the tag of
    the write before it to the same sector (the tag (0, 0), whose file is never removed, may repeat). -/

namespace AtomicDisk.Storage
open Schemes

/-- Calls of `write`, one after the other. -/
def SectorsManagerState.writeAll (m : SectorsManagerState) (ws : List (SectorIdx × Sector)) :
    Option SectorsManagerState :=
  ws.foldlM (fun m w => m.write w.1 w.2) m

/-- The last write to a sector. -/
def lastOf (idx : SectorIdx) (ws : List (SectorIdx × Sector)) : Option Sector :=
  ((ws.filter fun w => w.1 = idx).getLast?).map Prod.snd

/-- The manager returns the tag and the data of the last write to the sector, and (0, 0) and zeros
    for a sector that was never written. -/
def ReadsBack (m : SectorsManagerState) (ws : List (SectorIdx × Sector)) (idx : SectorIdx) : Prop :=
  m.readMetadata idx = ((lastOf idx ws).map Prod.snd).getD (0, 0) ∧
    m.readData idx = some (((lastOf idx ws).map Prod.fst).getD .zeros)

/-- No write repeats the tag of the write before it to the same sector, unless that is (0, 0). -/
def NoTagRepeated (ws : List (SectorIdx × Sector)) : Prop :=
  ∀ a idx s b, ws = a ++ (idx, s) :: b → s.2 ≠ (0, 0) → ∀ s', lastOf idx a = some s' → s'.2 ≠ s.2

variable {m m' : SectorsManagerState} {ws a b : List (SectorIdx × Sector)} {idx j : SectorIdx}
  {s s' : Sector} {t : UInt64 × UInt8}

/-! ### One write -/

/-- What `write` does: the file of the new tag appears, and then that of the old tag goes. -/
theorem write_eq (m : SectorsManagerState) (idx : SectorIdx) (s : Sector) :
    ∃ dir : Directory FileName,
      (∀ n, dir.lookup n = if n = sectoridxFilePath idx s.2.1 s.2.2 then some s.1.data
        else if n = sectoridxTmpFilePath idx s.2.1 s.2.2 then none else m.dir.lookup n) ∧
      m.write idx s =
        if m.readMetadata idx = (0, 0) then some ⟨dir, m.dataAccess.insert idx s.2⟩
        else (dir.removeFile (sectoridxFilePath idx (m.readMetadata idx).1
          (m.readMetadata idx).2)).map fun dir => ⟨dir, m.dataAccess.insert idx s.2⟩ := by
  obtain ⟨data, ts, wr⟩ := s
  have hfill : ((m.dir.create (sectoridxTmpFilePath idx ts wr)).fill (sectoridxTmpFilePath idx ts wr)
      data.data).lookup (sectoridxTmpFilePath idx ts wr) = some data.data := by
    rw [Directory.lookup_fill, if_pos rfl]
  obtain ⟨dir, hren⟩ := Directory.rename_isSome (b := sectoridxFilePath idx ts wr) hfill
  have hlook : ∀ n, dir.lookup n = if n = sectoridxFilePath idx ts wr then some data.data
      else if n = sectoridxTmpFilePath idx ts wr then none else m.dir.lookup n := by
    intro n
    rw [Directory.lookup_rename hren, hfill]
    by_cases hf : n = sectoridxFilePath idx ts wr
    · rw [if_pos hf, if_pos hf]
    · rw [if_neg hf, if_neg hf]
      by_cases ht : n = sectoridxTmpFilePath idx ts wr
      · rw [if_pos ht, if_pos ht]
      · rw [if_neg ht, if_neg ht, Directory.lookup_fill, if_neg ht, Directory.lookup_create, if_neg ht]
  refine ⟨dir, hlook, ?_⟩
  have hopen : dir.lookup (sectoridxFilePath idx ts wr) = some data.data := by
    rw [hlook, if_pos rfl]
  simp only [SectorsManagerState.write, SectorsManagerState.readMetadata, hren, hopen,
    Option.bind_eq_bind, Option.bind_some]
  by_cases hold : (m.dataAccess.lookup idx).getD (0, 0) = (0, 0)
  · simp [hold]
  · simp [hold, Option.map_eq_bind]

/-- What a completed `write` leaves. -/
theorem write_some (h : m.write idx s = some m') :
    m'.dataAccess = m.dataAccess.insert idx s.2 ∧ ∀ n, m'.dir.lookup n =
      if m.readMetadata idx ≠ (0, 0) ∧
        n = sectoridxFilePath idx (m.readMetadata idx).1 (m.readMetadata idx).2 then none
      else if n = sectoridxFilePath idx s.2.1 s.2.2 then some s.1.data
      else if n = sectoridxTmpFilePath idx s.2.1 s.2.2 then none else m.dir.lookup n := by
  obtain ⟨dir, hlook, heq⟩ := write_eq m idx s
  rw [heq] at h
  by_cases hold : m.readMetadata idx = (0, 0)
  · rw [if_pos hold] at h
    obtain rfl := Option.some.inj h
    refine ⟨rfl, fun n => ?_⟩
    have hkeep : ¬ (m.readMetadata idx ≠ (0, 0) ∧
        n = sectoridxFilePath idx (m.readMetadata idx).1 (m.readMetadata idx).2) := fun h => h.1 hold
    rw [hlook, if_neg hkeep]
  · rw [if_neg hold] at h
    obtain ⟨dir', hrem, rfl⟩ := Option.map_eq_some_iff.mp h
    refine ⟨rfl, fun n => ?_⟩
    rw [Directory.lookup_removeFile hrem, hlook]
    by_cases hn : n = sectoridxFilePath idx (m.readMetadata idx).1 (m.readMetadata idx).2
    · rw [if_pos hn, if_pos ⟨hold, hn⟩]
    · have hkeep : ¬ (m.readMetadata idx ≠ (0, 0) ∧
          n = sectoridxFilePath idx (m.readMetadata idx).1 (m.readMetadata idx).2) := fun h => hn h.2
      rw [if_neg hn, if_neg hkeep]

/-- `write` panics exactly when it does not find the file of the old tag. -/
theorem write_eq_none : m.write idx s = none ↔ m.readMetadata idx ≠ (0, 0) ∧ m.readMetadata idx ≠ s.2 ∧
    m.dir.lookup (sectoridxFilePath idx (m.readMetadata idx).1 (m.readMetadata idx).2) = none := by
  obtain ⟨dir, hlook, heq⟩ := write_eq m idx s
  rw [heq]
  by_cases hold : m.readMetadata idx = (0, 0)
  · rw [if_pos hold]
    simp [hold]
  · rw [if_neg hold, Option.map_eq_none_iff, Directory.removeFile_eq_none, hlook]
    by_cases hsame : m.readMetadata idx = s.2
    · have hfile : sectoridxFilePath idx (m.readMetadata idx).1 (m.readMetadata idx).2 =
          sectoridxFilePath idx s.2.1 s.2.2 := by rw [hsame]
      rw [if_pos hfile]
      simp [hsame]
    · have hfile : sectoridxFilePath idx (m.readMetadata idx).1 (m.readMetadata idx).2 ≠
          sectoridxFilePath idx s.2.1 s.2.2 := fun h =>
        hsame (Prod.ext (filePath_inj.mp h).2.1 (filePath_inj.mp h).2.2)
      rw [if_neg hfile, if_neg filePath_ne_tmp]
      simp [hold, hsame]

/-! ### Sequences of writes -/

theorem lastOf_snoc (j : SectorIdx) (ws : List (SectorIdx × Sector)) (idx : SectorIdx) (s : Sector) :
    lastOf j (ws ++ [(idx, s)]) = if j = idx then some s else lastOf j ws := by
  by_cases h : j = idx
  · simp [lastOf, h]
  · simp [lastOf, h, Ne.symm h]

theorem writeAll_snoc (m : SectorsManagerState) (ws : List (SectorIdx × Sector)) (idx : SectorIdx)
    (s : Sector) : m.writeAll (ws ++ [(idx, s)]) = (m.writeAll ws).bind fun m => m.write idx s := by
  simp [SectorsManagerState.writeAll, List.foldlM_append]

/-- The map knows the tag of the last write to every sector, whatever the tags. -/
theorem writeAll_dataAccess : ∀ (ws : List (SectorIdx × Sector)) {m : SectorsManagerState},
    SectorsManagerState.writeAll ⟨∅, ∅⟩ ws = some m →
    ∀ idx, m.dataAccess.lookup idx = (lastOf idx ws).map Prod.snd := by
  intro ws
  induction ws using List.reverseRecOn with
  | nil =>
    intro m h idx
    obtain rfl := Option.some.inj h
    simp [lastOf]
  | append_singleton ws w ih =>
    intro m h idx
    obtain ⟨j, s⟩ := w
    rw [writeAll_snoc] at h
    obtain ⟨m₀, h₀, hw⟩ := Option.bind_eq_some_iff.mp h
    rw [(write_some hw).1, lastOf_snoc]
    by_cases hj : idx = j
    · rw [if_pos hj, hj, AList.lookup_insert]; rfl
    · rw [if_neg hj, AList.lookup_insert_ne hj, ih h₀]

/-- The file of the last write to every sector is there. -/
def Stored (m : SectorsManagerState) (ws : List (SectorIdx × Sector)) : Prop :=
  ∀ idx s, lastOf idx ws = some s → m.dir.lookup (sectoridxFilePath idx s.2.1 s.2.2) = some s.1.data

/-- A write that does not repeat the tag before it completes, and leaves the file of the last write to
    every sector. -/
theorem Stored.write (hst : Stored m ws)
    (hmap : ∀ idx, m.dataAccess.lookup idx = (lastOf idx ws).map Prod.snd)
    (hnew : s.2 ≠ (0, 0) → ∀ s', lastOf idx ws = some s' → s'.2 ≠ s.2) :
    ∃ m', m.write idx s = some m' ∧ Stored m' (ws ++ [(idx, s)]) := by
  have hold : m.readMetadata idx ≠ (0, 0) → ∃ s', lastOf idx ws = some s' ∧ m.readMetadata idx = s'.2 := by
    intro hne
    cases hlast : lastOf idx ws with
    | none => simp [SectorsManagerState.readMetadata, hmap, hlast] at hne
    | some s' => exact ⟨s', rfl, by simp [SectorsManagerState.readMetadata, hmap, hlast]⟩
  have hdiff : m.readMetadata idx ≠ (0, 0) → m.readMetadata idx ≠ s.2 := by
    intro hne heq
    obtain ⟨s', hlast, htag⟩ := hold hne
    exact hnew (heq ▸ hne) s' hlast (htag ▸ heq)
  cases hw : m.write idx s with
  | none =>
    obtain ⟨hne, -, hnone⟩ := write_eq_none.mp hw
    obtain ⟨s', hlast, htag⟩ := hold hne
    rw [htag, hst idx s' hlast] at hnone
    simp at hnone
  | some m' =>
    refine ⟨m', rfl, fun j s' hlast => ?_⟩
    rw [lastOf_snoc] at hlast
    rw [(write_some hw).2]
    by_cases hj : j = idx
    · rw [if_pos hj] at hlast
      obtain rfl := Option.some.inj hlast
      subst hj
      rw [if_neg, if_pos rfl]
      rintro ⟨hne, hfile⟩
      obtain ⟨-, h₁, h₂⟩ := filePath_inj.mp hfile
      exact hdiff hne (Prod.ext h₁.symm h₂.symm)
    · -- names of another sector are not touched
      rw [if_neg hj] at hlast
      rw [if_neg fun h => hj (filePath_inj.mp h.2).1, if_neg fun h => hj (filePath_inj.mp h).1,
        if_neg filePath_ne_tmp]
      exact hst j s' hlast

/-- The map has a tag for the sector whose file is not there. -/
def Broken (m : SectorsManagerState) (idx : SectorIdx) : Prop :=
  ∃ t, m.dataAccess.lookup idx = some t ∧ t ≠ (0, 0) ∧
    m.dir.lookup (sectoridxFilePath idx t.1 t.2) = none

/-- A write that repeats the tag of its sector removes what it has stored. -/
theorem broken_of_repeat (hmap : m.dataAccess.lookup idx = some s.2) (hne : s.2 ≠ (0, 0))
    (hw : m.write idx s = some m') : Broken m' idx := by
  obtain ⟨hdata, hlook⟩ := write_some hw
  have hold : m.readMetadata idx = s.2 := by simp [SectorsManagerState.readMetadata, hmap]
  refine ⟨s.2, by rw [hdata, AList.lookup_insert], hne, ?_⟩
  rw [hlook, if_pos ⟨by rwa [hold], by rw [hold]⟩]

/-- No later write repairs the sector. -/
theorem Broken.write (hb : Broken m idx) (hw : m.write j s = some m') : Broken m' idx := by
  obtain ⟨t, hmap, hne, hnone⟩ := hb
  rcases eq_or_ne idx j with rfl | hj
  · by_cases hsame : t = s.2
    · exact broken_of_repeat (hsame ▸ hmap) (hsame ▸ hne) hw
    · have hold : m.readMetadata idx = t := by simp [SectorsManagerState.readMetadata, hmap]
      rw [write_eq_none.mpr ⟨by rwa [hold], by rwa [hold], by rwa [hold]⟩] at hw
      simp at hw
  · obtain ⟨hdata, hlook⟩ := write_some hw
    refine ⟨t, by rw [hdata, AList.lookup_insert_ne hj, hmap], hne, ?_⟩
    rw [hlook, if_neg fun h => hj (filePath_inj.mp h.2).1, if_neg fun h => hj (filePath_inj.mp h).1,
      if_neg filePath_ne_tmp]
    exact hnone

theorem Broken.writeAll : ∀ (ws : List (SectorIdx × Sector)) {m m' : SectorsManagerState},
    Broken m idx → m.writeAll ws = some m' → Broken m' idx
  | [], _, _, hb, h => by obtain rfl := Option.some.inj h; exact hb
  | (j, s) :: ws, m, m', hb, h => by
    obtain ⟨m₁, hw, hrest⟩ := Option.bind_eq_some_iff.mp h
    exact Broken.writeAll ws (hb.write hw) hrest

theorem Broken.readData (hb : Broken m idx) : m.readData idx = none := by
  obtain ⟨t, hmap, -, hnone⟩ := hb
  simp [SectorsManagerState.readData, hmap, Directory.readExact, hnone]

/-! ### The map from sectors to last writes -/

theorem noTagRepeated_snoc : NoTagRepeated (ws ++ [(idx, s)]) ↔
    NoTagRepeated ws ∧ (s.2 ≠ (0, 0) → ∀ s', lastOf idx ws = some s' → s'.2 ≠ s.2) := by
  constructor
  · intro h
    refine ⟨fun a j u b hws hne => ?_, h ws idx s [] rfl⟩
    exact h a j u (b ++ [(idx, s)]) (by rw [hws]; simp) hne
  · rintro ⟨hws, hlast⟩ a j u b heq hne
    rcases List.eq_nil_or_concat b with rfl | ⟨b, w, rfl⟩
    · obtain ⟨rfl, hw⟩ := List.append_inj' heq rfl
      obtain ⟨rfl, rfl⟩ : idx = j ∧ s = u := by simpa using hw
      exact hlast hne
    · rw [List.concat_eq_append, ← List.cons_append, ← List.append_assoc] at heq
      exact hws a j u b (List.append_inj' heq rfl).1 hne

theorem lastOf_mem (h : lastOf idx ws = some s) : (idx, s) ∈ ws := by
  obtain ⟨⟨j, s'⟩, hlast, rfl⟩ := Option.map_eq_some_iff.mp h
  obtain ⟨hmem, hj⟩ := List.mem_filter.mp (List.mem_of_getLast? hlast)
  obtain rfl : j = idx := by simpa using hj
  exact hmem

/-- Without a repeated tag all writes complete, and the file of every last write is there. -/
theorem writeAll_stored : ∀ (ws : List (SectorIdx × Sector)), NoTagRepeated ws →
    ∃ m, SectorsManagerState.writeAll ⟨∅, ∅⟩ ws = some m ∧ Stored m ws := by
  intro ws
  induction ws using List.reverseRecOn with
  | nil => exact fun _ => ⟨⟨∅, ∅⟩, rfl, fun idx s h => by simp [lastOf] at h⟩
  | append_singleton ws w ih =>
    obtain ⟨idx, s⟩ := w
    intro hno
    obtain ⟨hno, hnew⟩ := noTagRepeated_snoc.mp hno
    obtain ⟨m, hm, hst⟩ := ih hno
    obtain ⟨m', hw, hst'⟩ := hst.write (writeAll_dataAccess ws hm) hnew
    exact ⟨m', by rw [writeAll_snoc, hm]; exact hw, hst'⟩

theorem Stored.readsBack (hst : Stored m ws) (hlen : ∀ w ∈ ws, w.2.1.data.length = 4096)
    (hmap : ∀ idx, m.dataAccess.lookup idx = (lastOf idx ws).map Prod.snd) (idx : SectorIdx) :
    ReadsBack m ws idx := by
  refine ⟨by rw [SectorsManagerState.readMetadata, hmap], ?_⟩
  cases hlast : lastOf idx ws with
  | none => simp [SectorsManagerState.readData, hmap, hlast]
  | some s =>
    have hread := Directory.readExact_full (hst idx s hlast)
    rw [hlen _ (lastOf_mem hlast)] at hread
    simp [SectorsManagerState.readData, hmap, hlast, hread]

/-- Calls of `write` on a manager that `new` has made on an empty directory. -/
def freshWrites (ws : List (SectorIdx × Sector)) : Option SectorsManagerState :=
  (SectorsManagerState.new ∅ []).bind fun m => m.writeAll ws

theorem freshWrites_eq (ws : List (SectorIdx × Sector)) :
    freshWrites ws = SectorsManagerState.writeAll ⟨∅, ∅⟩ ws := rfl

/-- CORRECT (exactly when): of the sequences of writes of 4096 bytes, to any sectors and with any tags,
    those without a repeated tag complete; and after a sequence that has completed, all sectors read
    back as last written if and only if it has no repeated tag. -/
theorem readsBack_iff_noTagRepeated (hlen : ∀ w ∈ ws, w.2.1.data.length = 4096) :
    (NoTagRepeated ws → ∃ m, freshWrites ws = some m) ∧
      ∀ m, freshWrites ws = some m → ((∀ idx, ReadsBack m ws idx) ↔ NoTagRepeated ws) := by
  refine ⟨fun hno => ?_, fun m hm => ⟨fun hread => ?_, fun hno idx => ?_⟩⟩
  · obtain ⟨m, hm, -⟩ := writeAll_stored ws hno
    exact ⟨m, hm⟩
  · -- a repeated tag breaks the sector for good
    rintro a idx s b rfl hne s' hlast heq
    rw [freshWrites_eq, SectorsManagerState.writeAll, List.foldlM_append] at hm
    obtain ⟨m₁, h₁, hm⟩ := Option.bind_eq_some_iff.mp hm
    obtain ⟨m₂, h₂, hm⟩ := Option.bind_eq_some_iff.mp hm
    have hmap : m₁.dataAccess.lookup idx = some s.2 := by
      rw [writeAll_dataAccess a h₁, hlast, ← heq]; rfl
    have hbroken := Broken.writeAll b (broken_of_repeat hmap hne h₂) hm
    simpa [hbroken.readData] using (hread idx).2
  · obtain ⟨m', hm', hst⟩ := writeAll_stored ws hno
    obtain rfl : m' = m := Option.some.inj (hm'.symm.trans hm)
    exact hst.readsBack hlen (writeAll_dataAccess ws hm') idx

/-- Two writes to a sector. -/
def twoWrites (t : UInt64) : List (SectorIdx × Sector) := [(5, filled 1, 1, 1)] ++ [(5, filled 2, t, 1)]

/-- With increasing tags they are read back. -/
theorem twoWrites_readsBack : ∃ m, freshWrites (twoWrites 2) = some m ∧
    ∀ idx, ReadsBack m (twoWrites 2) idx := by
  have hno : NoTagRepeated (twoWrites 2) := by
    have hnil : NoTagRepeated [] := fun a idx s b h => by simp at h
    have hone : NoTagRepeated ([] ++ [(5, filled 1, 1, 1)]) :=
      noTagRepeated_snoc.mpr ⟨hnil, by simp [lastOf]⟩
    refine noTagRepeated_snoc.mpr ⟨hone, fun _ s' hs' => ?_⟩
    obtain rfl : (filled 1, 1, 1) = s' := by simpa [lastOf] using hs'
    decide
  have hlen : ∀ w ∈ twoWrites 2, w.2.1.data.length = 4096 := by simp [twoWrites]
  obtain ⟨hcomplete, hiff⟩ := readsBack_iff_noTagRepeated hlen
  obtain ⟨m, hm⟩ := hcomplete hno
  exact ⟨m, hm, (hiff m hm).mpr hno⟩

/-- With the same tag they complete too, and the sector can then not be read. -/
theorem not_always_readsBack : ¬ ∀ ws m, (∀ w ∈ ws, w.2.1.data.length = 4096) →
    freshWrites ws = some m → ∀ idx, ReadsBack m ws idx := by
  intro hall
  have hrun : (freshWrites (twoWrites 1)).any (fun m => (m.readData 5).isNone) = true := by
    decide +kernel
  cases hm : freshWrites (twoWrites 1) with
  | none => simp [hm] at hrun
  | some m =>
    have hread := (hall _ m (by simp [twoWrites]) hm 5).2
    have hnone : m.readData 5 = none := by simpa [hm] using hrun
    simp [hnone] at hread

end AtomicDisk.Storage
