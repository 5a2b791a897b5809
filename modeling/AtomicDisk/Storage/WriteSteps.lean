import AtomicDisk.Storage.Crashes

/-! What a call of `write` does to its sector. What the directory holds for one sector is seen as two
    functions of the tag, the files and the temporary files (`fileAt`, `tmpAt`); a step of a call changes
    them for its own sector only. While the manager is up they are as the call in progress prescribes:

        stage       begun  created  filled  renamed   updated   removed
        tmp files     -      s?       s        -         -         -
        files         u      u        u      u, s      u, s        s        (u in effect, s being written)
        map           u      u        u        u         s         s                                     -/

namespace AtomicDisk.Storage
open Schemes

variable {dir dir' : Directory FileName} {idx j : SectorIdx} {t : UInt64 × UInt8} {c : List UInt8}

/-! ### The files of one sector -/

/-- The contents of the sector's file with tag `t`. -/
def fileAt (dir : Directory FileName) (idx : SectorIdx) (t : UInt64 × UInt8) : Option (List UInt8) :=
  dir.lookup (sectoridxFilePath idx t.1 t.2)

/-- The contents of the sector's temporary file with tag `t`. -/
def tmpAt (dir : Directory FileName) (idx : SectorIdx) (t : UInt64 × UInt8) : Option (List UInt8) :=
  dir.lookup (sectoridxTmpFilePath idx t.1 t.2)

/-- Every name is one that the manager makes. -/
def Named (dir : Directory FileName) : Prop := ∀ n c, dir.lookup n = some c →
  ∃ idx ts wr, n = sectoridxFilePath idx ts wr ∨ n = sectoridxTmpFilePath idx ts wr

/-- A change under the name of one sector and tag, where names are injective. -/
theorem ite_name {name : SectorIdx → UInt64 → UInt8 → FileName}
    (hinj : ∀ {i j : SectorIdx} {t u : UInt64} {w v : UInt8}, name i t w = name j u v ↔
      i = j ∧ t = u ∧ w = v) (f : UInt64 × UInt8 → Option (List UInt8)) (v : Option (List UInt8)) :
    (fun u => if name idx u.1 u.2 = name j t.1 t.2 then v else f u) =
      if idx = j then Function.update f t v else f := by
  funext u
  by_cases hj : idx = j
  · rw [if_pos hj, Function.update_apply, hj]
    by_cases hu : u = t
    · rw [if_pos hu, if_pos (by rw [hu])]
    · rw [if_neg hu, if_neg fun h => hu (Prod.ext (hinj.mp h).2.1 (hinj.mp h).2.2)]
  · rw [if_neg hj, if_neg fun h => hj (hinj.mp h).1]

theorem fileAt_fill_tmp (c : List UInt8) :
    fileAt (dir.fill (sectoridxTmpFilePath j t.1 t.2) c) idx = fileAt dir idx := by
  funext u
  rw [fileAt, Directory.lookup_fill, if_neg filePath_ne_tmp, fileAt]

theorem tmpAt_fill_tmp (c : List UInt8) :
    tmpAt (dir.fill (sectoridxTmpFilePath j t.1 t.2) c) idx =
      if idx = j then Function.update (tmpAt dir idx) t (some c) else tmpAt dir idx := by
  rw [← ite_name tmpFilePath_inj]
  funext u
  rw [tmpAt, Directory.lookup_fill, tmpAt]

theorem fileAt_removeFile (h : dir.removeFile (sectoridxFilePath j t.1 t.2) = some dir') :
    fileAt dir' idx =
      if idx = j then Function.update (fileAt dir idx) t none else fileAt dir idx := by
  rw [← ite_name filePath_inj]
  funext u
  rw [fileAt, Directory.lookup_removeFile h, fileAt]

theorem tmpAt_removeFile (h : dir.removeFile (sectoridxFilePath j t.1 t.2) = some dir') :
    tmpAt dir' idx = tmpAt dir idx := by
  funext u
  rw [tmpAt, Directory.lookup_removeFile h, if_neg filePath_ne_tmp.symm, tmpAt]

theorem fileAt_rename (h : dir.rename (sectoridxTmpFilePath j t.1 t.2)
      (sectoridxFilePath j t.1 t.2) = some dir') :
    fileAt dir' idx =
      if idx = j then Function.update (fileAt dir idx) t (tmpAt dir j t) else fileAt dir idx := by
  rw [← ite_name filePath_inj]
  funext u
  rw [fileAt, Directory.lookup_rename h, if_neg filePath_ne_tmp, fileAt, tmpAt]

theorem tmpAt_rename (h : dir.rename (sectoridxTmpFilePath j t.1 t.2)
      (sectoridxFilePath j t.1 t.2) = some dir') :
    tmpAt dir' idx =
      if idx = j then Function.update (tmpAt dir idx) t none else tmpAt dir idx := by
  rw [← ite_name tmpFilePath_inj]
  funext u
  rw [tmpAt, Directory.lookup_rename h, if_neg filePath_ne_tmp.symm, tmpAt]

/-! ### While the manager is up -/

/-- The writes whose files are there, given the write in effect and the call in progress. -/
def present (settled : Option Sector) : Option Call → List Sector
  | some ⟨s, .renamed⟩ | some ⟨s, .updated _⟩ => settled.toList ++ [s]
  | some ⟨s, .removed⟩ => [s]
  | _ => settled.toList

/-- The write whose tag the map has. -/
def mapped (settled : Option Sector) : Option Call → Option Sector
  | some ⟨s, .updated _⟩ | some ⟨s, .removed⟩ => some s
  | _ => settled

/-- Files, temporary files and map entry of a sector are as its call in progress prescribes. -/
structure Kept (file tmp : UInt64 × UInt8 → Option (List UInt8)) (entry : Option (UInt64 × UInt8))
    (settled : Option Sector) (call : Option Call) : Prop where
  files : ∀ t c, file t = some c ↔ ∃ u ∈ present settled call, u.2 = t ∧ u.1.data = c
  tmps : ∀ t c, tmp t = some c → ∃ k ∈ call, k.sector.2 = t ∧ (k.stage = .created ∨ k.stage = .filled)
  full : ∀ k ∈ call, k.stage = .filled → tmp k.sector.2 = some k.sector.1.data
  mapEntry : entry = (mapped settled call).map Prod.snd
  oldTag : ∀ k ∈ call, ∀ o, k.stage = .updated o → o = (settled.map Prod.snd).getD (0, 0)
  later : ∀ k ∈ call, ∀ u ∈ settled, sectorTag u < sectorTag k.sector

variable {file tmp : UInt64 × UInt8 → Option (List UInt8)} {entry : Option (UInt64 × UInt8)}
  {settled : Option Sector} {s : Sector} {m m' : SectorsManagerState}

theorem tag_ne_of_lt {u v : Sector} (h : sectorTag u < sectorTag v) : u.2 ≠ v.2 := fun heq =>
  absurd h (by simp [sectorTag, heq])

theorem Kept.laterAt {stage stage' : Stage} (h : Kept file tmp entry settled (some ⟨s, stage⟩)) :
    ∀ k ∈ some (Call.mk s stage'), ∀ u ∈ settled, sectorTag u < sectorTag k.sector := by
  intro k hk u hu
  obtain rfl := Option.mem_some_iff.mp hk
  exact h.later _ rfl u hu

/-- There is a temporary file only between creating and renaming it. -/
theorem Kept.tmp_ne {stage : Stage} (h : Kept file tmp entry settled (some ⟨s, stage⟩))
    (hcreated : stage ≠ .created) (hfilled : stage ≠ .filled) (t : UInt64 × UInt8) (c : List UInt8) :
    tmp t ≠ some c := by
  intro ht
  obtain ⟨k, hk, -, hstage⟩ := h.tmps t c ht
  obtain rfl := Option.mem_some_iff.mp hk
  exact hstage.elim hcreated hfilled

/-- A call begins. -/
theorem Kept.begin (h : Kept file tmp entry settled none)
    (hlater : ∀ u ∈ settled, sectorTag u < sectorTag s) :
    Kept file tmp entry settled (some ⟨s, .begun⟩) := by
  refine ⟨h.files, fun t c ht => ?_, by simp, h.mapEntry, by simp, fun k hk u hu => ?_⟩
  · obtain ⟨k, hk, -⟩ := h.tmps t c ht
    simp at hk
  · obtain rfl := Option.mem_some_iff.mp hk
    exact hlater u hu

theorem Kept.create (h : Kept file tmp entry settled (some ⟨s, .begun⟩)) :
    Kept file (Function.update tmp s.2 (some [])) entry settled (some ⟨s, .created⟩) := by
  refine ⟨h.files, fun t c ht => ?_, by simp, h.mapEntry, by simp, h.laterAt⟩
  rw [Function.update_apply] at ht
  split at ht
  · exact ⟨_, rfl, by simp [*], Or.inl rfl⟩
  · exact absurd ht (h.tmp_ne (by simp) (by simp) t c)

theorem Kept.fillPartly (h : Kept file tmp entry settled (some ⟨s, .created⟩)) (c : List UInt8) :
    Kept file (Function.update tmp s.2 (some c)) entry settled (some ⟨s, .created⟩) := by
  refine ⟨h.files, fun t c ht => ?_, by simp, h.mapEntry, by simp, h.laterAt⟩
  rw [Function.update_apply] at ht
  split at ht
  · exact ⟨_, rfl, by simp [*], Or.inl rfl⟩
  · exact h.tmps t c ht

theorem Kept.fill (h : Kept file tmp entry settled (some ⟨s, .created⟩)) :
    Kept file (Function.update tmp s.2 (some s.1.data)) entry settled (some ⟨s, .filled⟩) := by
  refine ⟨h.files, fun t c ht => ?_, by simp, h.mapEntry, by simp, h.laterAt⟩
  rw [Function.update_apply] at ht
  split at ht
  · exact ⟨_, rfl, by simp [*], Or.inr rfl⟩
  · obtain ⟨k, hk, heq, -⟩ := h.tmps t c ht
    obtain rfl := Option.mem_some_iff.mp hk
    exact ⟨_, rfl, heq, Or.inr rfl⟩

theorem Kept.rename (h : Kept file tmp entry settled (some ⟨s, .filled⟩)) :
    Kept (Function.update file s.2 (tmp s.2)) (Function.update tmp s.2 none) entry settled
      (some ⟨s, .renamed⟩) := by
  have hfull := h.full _ rfl rfl
  refine ⟨fun t c => ?_, fun t c ht => ?_, by simp, h.mapEntry, by simp, h.laterAt⟩
  · rw [Function.update_apply, hfull]
    have hfile := h.files t c
    simp only [present] at hfile ⊢
    by_cases ht : t = s.2
    · rw [if_pos ht]
      constructor
      · intro hc; exact ⟨s, by simp, ht.symm, Option.some.inj hc⟩
      · rintro ⟨u, hu, rfl, rfl⟩
        rcases List.mem_append.mp hu with hu | hu
        · exact absurd ht (tag_ne_of_lt (h.later _ rfl u (Option.mem_toList.mp hu)))
        · rw [List.mem_singleton.mp hu]
    · rw [if_neg ht, hfile]
      constructor
      · rintro ⟨u, hu, hut⟩; exact ⟨u, List.mem_append_left _ hu, hut⟩
      · rintro ⟨u, hu, rfl, hut⟩
        rcases List.mem_append.mp hu with hu | hu
        · exact ⟨u, hu, rfl, hut⟩
        · exact absurd (by rw [List.mem_singleton.mp hu]) ht
  · rw [Function.update_apply] at ht
    split at ht
    · simp at ht
    · obtain ⟨k, hk, heq, -⟩ := h.tmps t c ht
      obtain rfl := Option.mem_some_iff.mp hk
      simp_all

theorem Kept.update (h : Kept file tmp entry settled (some ⟨s, .renamed⟩)) :
    Kept file tmp (some s.2) settled (some ⟨s, .updated (entry.getD (0, 0))⟩) := by
  have hentry : entry = settled.map Prod.snd := h.mapEntry
  refine ⟨h.files, fun t c ht => absurd ht (h.tmp_ne (by simp) (by simp) t c), by simp, rfl,
    fun k hk o ho => ?_, h.laterAt⟩
  obtain rfl := Option.mem_some_iff.mp hk
  obtain rfl : entry.getD (0, 0) = o := by simpa using ho
  rw [hentry]

/-- The old file is there when it is removed, and it is not the new one. -/
theorem Kept.remove {o : UInt64 × UInt8} (hnz : ∀ u ∈ settled, u.2 ≠ (0, 0))
    (h : Kept file tmp entry settled (some ⟨s, .updated o⟩)) :
    (o ≠ (0, 0) → ∃ c, file o = some c) ∧
      Kept (if o ≠ (0, 0) then Function.update file o none else file) tmp entry settled
        (some ⟨s, .removed⟩) := by
  have hold : o = (settled.map Prod.snd).getD (0, 0) := h.oldTag _ rfl o rfl
  have htmp : ∀ t c, tmp t = some c → ∃ k ∈ some (Call.mk s .removed), k.sector.2 = t ∧
      (k.stage = .created ∨ k.stage = .filled) := by
    intro t c ht
    exact absurd ht (h.tmp_ne (by simp) (by simp) t c)
  cases settled with
  | none =>
    obtain rfl : o = (0, 0) := hold
    refine ⟨by simp, ⟨fun t c => ?_, htmp, by simp, h.mapEntry, by simp, h.laterAt⟩⟩
    have hfile := h.files t c
    simpa [present] using hfile
  | some u =>
    obtain rfl : o = u.2 := hold
    have hne := tag_ne_of_lt (h.later _ rfl u rfl)
    have hu := hnz u rfl
    refine ⟨fun _ => ⟨u.1.data, (h.files _ _).mpr ⟨u, by simp [present], rfl, rfl⟩⟩,
      ⟨fun t c => ?_, htmp, by simp, h.mapEntry, by simp, h.laterAt⟩⟩
    rw [if_pos hu, Function.update_apply]
    have hfile := h.files t c
    simp only [present] at hfile ⊢
    by_cases ht : t = u.2
    · rw [if_pos ht]
      constructor
      · simp
      · rintro ⟨v, hv, rfl, -⟩
        rw [List.mem_singleton.mp hv] at ht
        exact absurd ht.symm hne
    · rw [if_neg ht, hfile]
      constructor
      · rintro ⟨v, hv, rfl, hc⟩
        simp only [Option.toList_some, List.cons_append, List.nil_append, List.mem_cons,
          List.not_mem_nil, or_false] at hv
        rcases hv with rfl | rfl
        · exact absurd rfl ht
        · exact ⟨v, by simp, rfl, hc⟩
      · rintro ⟨v, hv, hvt⟩
        rw [List.mem_singleton.mp hv] at hvt
        exact ⟨s, by simp, hvt⟩

/-- When a call returns, its write is the one in effect. -/
theorem Kept.return (h : Kept file tmp entry settled (some ⟨s, .removed⟩)) :
    Kept file tmp entry (some s) none := by
  refine ⟨fun t c => ?_, fun t c ht => absurd ht (h.tmp_ne (by simp) (by simp) t c), by simp,
    h.mapEntry, by simp, by simp⟩
  have hfile := h.files t c
  simpa [present] using hfile

/-- The files and the map entry of a sector in the manager are as its call in progress prescribes. -/
def KeptIn (m : SectorsManagerState) (idx : SectorIdx) (settled : Option Sector) (call : Option Call) :
    Prop :=
  Kept (fileAt m.dir idx) (tmpAt m.dir idx) (m.dataAccess.lookup idx) settled call

/-- Two managers agree on a sector. -/
structure SameSector (m m' : SectorsManagerState) (idx : SectorIdx) : Prop where
  file : fileAt m'.dir idx = fileAt m.dir idx
  tmp : tmpAt m'.dir idx = tmpAt m.dir idx
  entry : m'.dataAccess.lookup idx = m.dataAccess.lookup idx

theorem KeptIn.same {call : Option Call} (h : KeptIn m idx settled call) (hs : SameSector m m' idx) :
    KeptIn m' idx settled call := by
  rw [KeptIn, hs.file, hs.tmp, hs.entry]
  exact h

theorem Directory.create_eq_fill (dir : Directory FileName) (n : FileName) :
    dir.create n = dir.fill n [] := rfl

/-- A step of a call does not panic, and leaves other sectors alone. -/
theorem KeptIn.advance {k : Call} (hnz : ∀ u ∈ settled, u.2 ≠ (0, 0))
    (h : KeptIn m idx settled (some k)) : ∃ m' k', k.advance idx m = some (m', k') ∧
      k'.sector = k.sector ∧ KeptIn m' idx settled (some k') ∧ ∀ j, j ≠ idx → SameSector m m' j := by
  obtain ⟨s, stage⟩ := k
  cases stage with
  | begun =>
    refine ⟨_, _, rfl, rfl, ?_, fun j hj => ⟨?_, ?_, rfl⟩⟩
    · rw [KeptIn, Directory.create_eq_fill, fileAt_fill_tmp, tmpAt_fill_tmp, if_pos rfl]
      exact Kept.create h
    · rw [Directory.create_eq_fill, fileAt_fill_tmp]
    · rw [Directory.create_eq_fill, tmpAt_fill_tmp, if_neg hj]
  | created =>
    refine ⟨_, _, rfl, rfl, ?_, fun j hj => ⟨?_, ?_, rfl⟩⟩
    · rw [KeptIn, fileAt_fill_tmp, tmpAt_fill_tmp, if_pos rfl]
      exact Kept.fill h
    · rw [fileAt_fill_tmp]
    · rw [tmpAt_fill_tmp, if_neg hj]
  | filled =>
    have hfull : tmpAt m.dir idx s.2 = some s.1.data := Kept.full h ⟨s, .filled⟩ rfl rfl
    rw [tmpAt] at hfull
    obtain ⟨dir, hren⟩ := Directory.rename_isSome (b := sectoridxFilePath idx s.2.1 s.2.2) hfull
    refine ⟨⟨dir, m.dataAccess⟩, ⟨s, .renamed⟩, by simp [Call.advance, hren], rfl, ?_,
      fun j hj => ⟨?_, ?_, rfl⟩⟩
    · rw [KeptIn, fileAt_rename hren, tmpAt_rename hren, if_pos rfl, if_pos rfl]
      exact Kept.rename h
    · rw [fileAt_rename hren, if_neg hj]
    · rw [tmpAt_rename hren, if_neg hj]
  | renamed =>
    have hfile : fileAt m.dir idx s.2 = some s.1.data :=
      (Kept.files h s.2 s.1.data).mpr ⟨s, by simp [present], rfl, rfl⟩
    rw [fileAt] at hfile
    refine ⟨⟨m.dir, m.dataAccess.insert idx s.2⟩, ⟨s, .updated (m.readMetadata idx)⟩,
      by simp [Call.advance, hfile], rfl, ?_, fun j hj => ⟨rfl, rfl, ?_⟩⟩
    · rw [KeptIn, AList.lookup_insert]
      exact Kept.update h
    · rw [AList.lookup_insert_ne hj]
  | updated o =>
    obtain ⟨hthere, hkept⟩ := Kept.remove hnz h
    by_cases ho : o = (0, 0)
    · refine ⟨m, ⟨s, .removed⟩, by simp [Call.advance, ho], rfl, ?_, fun j hj => ⟨rfl, rfl, rfl⟩⟩
      rw [if_neg (not_not.mpr ho)] at hkept
      exact hkept
    · obtain ⟨c, hc⟩ := hthere ho
      rw [fileAt] at hc
      obtain ⟨dir, hrem⟩ := Directory.removeFile_isSome hc
      refine ⟨⟨dir, m.dataAccess⟩, ⟨s, .removed⟩, by simp [Call.advance, ho, hrem], rfl, ?_,
        fun j hj => ⟨?_, tmpAt_removeFile hrem, rfl⟩⟩
      · rw [if_pos ho] at hkept
        rw [KeptIn, fileAt_removeFile hrem, tmpAt_removeFile hrem, if_pos rfl]
        exact hkept
      · rw [fileAt_removeFile hrem, if_neg hj]
  | removed => exact ⟨m, _, rfl, rfl, h, fun j _ => ⟨rfl, rfl, rfl⟩⟩

/-! ### Names -/

theorem Named.fill (h : Named dir) (idx : SectorIdx) (ts : UInt64) (wr : UInt8) (c : List UInt8) :
    Named (dir.fill (sectoridxTmpFilePath idx ts wr) c) := by
  intro n c' hn
  rw [Directory.lookup_fill] at hn
  split at hn
  · rename_i heq
    exact ⟨idx, ts, wr, Or.inr heq⟩
  · exact h n c' hn

theorem Named.rename (h : Named dir) {ts : UInt64} {wr : UInt8} {n : FileName}
    (hren : dir.rename n (sectoridxFilePath idx ts wr) = some dir') : Named dir' := by
  intro n' c hn
  rw [Directory.lookup_rename hren] at hn
  split at hn
  · rename_i heq
    exact ⟨idx, ts, wr, Or.inl heq⟩
  · split at hn
    · simp at hn
    · exact h n' c hn

theorem Named.removeFile (h : Named dir) {n : FileName} (hrem : dir.removeFile n = some dir') :
    Named dir' := by
  intro n' c hn
  rw [Directory.lookup_removeFile hrem] at hn
  split at hn
  · simp at hn
  · exact h n' c hn

theorem Named.advance {k k' : Call} (h : Named m.dir) (hadv : k.advance idx m = some (m', k')) :
    Named m'.dir := by
  obtain ⟨s, stage⟩ := k
  cases stage with
  | begun =>
    obtain ⟨rfl, -⟩ := Prod.mk.inj (Option.some.inj hadv)
    exact h.fill idx s.2.1 s.2.2 []
  | created =>
    obtain ⟨rfl, -⟩ := Prod.mk.inj (Option.some.inj hadv)
    exact h.fill idx s.2.1 s.2.2 s.1.data
  | filled =>
    obtain ⟨dir, hren, heq⟩ := Option.map_eq_some_iff.mp hadv
    obtain ⟨rfl, -⟩ := Prod.mk.inj heq
    exact h.rename hren
  | renamed =>
    obtain ⟨c, -, heq⟩ := Option.map_eq_some_iff.mp hadv
    obtain ⟨rfl, -⟩ := Prod.mk.inj heq
    exact h
  | updated o =>
    simp only [Call.advance] at hadv
    split at hadv
    · obtain ⟨dir, hrem, heq⟩ := Option.map_eq_some_iff.mp hadv
      obtain ⟨rfl, -⟩ := Prod.mk.inj heq
      exact h.removeFile hrem
    · obtain ⟨rfl, -⟩ := Prod.mk.inj (Option.some.inj hadv)
      exact h
  | removed =>
    obtain ⟨rfl, -⟩ := Prod.mk.inj (Option.some.inj hadv)
    exact h

end AtomicDisk.Storage
