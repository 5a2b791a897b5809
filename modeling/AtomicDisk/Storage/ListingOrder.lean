import AtomicDisk.Storage.Recovery

/-! Recovery of any directory of the manager's names, listed in any order. Whatever the order, it finishes,
    and its map sends every sector to the largest tag among its files. The files that stay are those the map
    names, with one exception: recovery takes `(0, 0)` in its map for the absence of an entry, so that

        5_0_0, 5_5_1   ──▶   map[5] := (0, 0),   map[5] := (5, 1)   and 5_0_0 stays
        5_5_1, 5_0_0   ──▶   map[5] := (5, 1),   5_0_0 removed

    a file with the tag `(0, 0)` that is listed first of its sector stays for good. -/

namespace AtomicDisk.Storage
open Schemes

variable {dir₀ dir dir' : Directory FileName} {dataAccess dataAccess' : DataAccess} {seen listing : List FileName}
  {n : FileName} {idx j : SectorIdx} {t u : UInt64 × UInt8}

/-! ### What is listed of a sector -/

/-- The largest tag among the sector's files in a list of names. -/
def Largest (names : List FileName) (idx : SectorIdx) (t : UInt64 × UInt8) : Prop :=
  sectoridxFilePath idx t.1 t.2 ∈ names ∧
    ∀ u : UInt64 × UInt8, sectoridxFilePath idx u.1 u.2 ∈ names → tag u.1 u.2 ≤ tag t.1 t.2

/-- The first file of the sector in a list of names has the tag `(0, 0)`. -/
def Leads (names : List FileName) (idx : SectorIdx) : Prop :=
  ∃ l₁ l₂, names = l₁ ++ sectoridxFilePath idx 0 0 :: l₂ ∧
    ∀ u : UInt64 × UInt8, sectoridxFilePath idx u.1 u.2 ∉ l₁

theorem Leads.mem (h : Leads seen idx) : sectoridxFilePath idx 0 0 ∈ seen := by
  obtain ⟨l₁, l₂, rfl, -⟩ := h
  exact List.mem_append_right _ (List.mem_cons_self ..)

/-- The next name makes a difference only if it is the first of its sector. -/
theorem leads_concat : Leads (seen ++ [n]) idx ↔ Leads seen idx ∨
    n = sectoridxFilePath idx 0 0 ∧ ∀ u : UInt64 × UInt8, sectoridxFilePath idx u.1 u.2 ∉ seen := by
  constructor
  · rintro ⟨l₁, l₂, heq, hl₁⟩
    rcases List.eq_nil_or_concat l₂ with rfl | ⟨l₂, x, rfl⟩
    · obtain ⟨rfl, hn⟩ := List.append_inj' heq rfl
      exact Or.inr ⟨List.singleton_inj.mp hn, hl₁⟩
    · rw [List.concat_eq_append, ← List.cons_append, ← List.append_assoc] at heq
      exact Or.inl ⟨l₁, l₂, (List.append_inj' heq rfl).1, hl₁⟩
  · rintro (⟨l₁, l₂, rfl, hl₁⟩ | ⟨rfl, hnone⟩)
    · exact ⟨l₁, l₂ ++ [n], by simp, hl₁⟩
    · exact ⟨seen, [], rfl, hnone⟩

/-- A sector of which nothing but a file with the tag `(0, 0)` is listed. -/
theorem leads_of_largest (h : Largest seen idx (0, 0)) : Leads seen idx := by
  obtain ⟨l₁, l₂, rfl, hl₁⟩ := List.eq_append_cons_of_mem h.1
  refine ⟨l₁, l₂, rfl, fun u hu => hl₁ ?_⟩
  have hle := h.2 u (List.mem_append_left _ hu)
  obtain ⟨h₁, h₂⟩ := tag_inj.mp (le_antisymm hle (tag_zero_le u.1 u.2))
  rw [← h₁, ← h₂]
  exact hu

theorem tag_inj_pair (h : tag t.1 t.2 = tag u.1 u.2) : t = u :=
  Prod.ext (tag_inj.mp h).1 (tag_inj.mp h).2

theorem Largest.unique (ht : Largest seen idx t) (hu : Largest seen idx u) : t = u :=
  tag_inj_pair (le_antisymm (hu.2 t ht.1) (ht.2 u hu.1))

theorem mem_concat_file : sectoridxFilePath j u.1 u.2 ∈ seen ++ [sectoridxFilePath idx t.1 t.2] ↔
    sectoridxFilePath j u.1 u.2 ∈ seen ∨ j = idx ∧ u = t := by
  rw [List.mem_append, List.mem_singleton, filePath_inj, Prod.ext_iff]

/-- A name that is no file of the sector leaves its largest tag. -/
theorem largest_concat_other (hn : ∀ u : UInt64 × UInt8, n ≠ sectoridxFilePath idx u.1 u.2) :
    Largest (seen ++ [n]) idx t ↔ Largest seen idx t := by
  have hmem : ∀ u : UInt64 × UInt8, sectoridxFilePath idx u.1 u.2 ∈ seen ++ [n] ↔
      sectoridxFilePath idx u.1 u.2 ∈ seen := by
    intro u
    simp [(hn u).symm]
  simp only [Largest, hmem]

/-- A file larger than those before it is the largest. -/
theorem largest_concat_new
    (hlt : ∀ u : UInt64 × UInt8, sectoridxFilePath idx u.1 u.2 ∈ seen → tag u.1 u.2 ≤ tag t.1 t.2) :
    Largest (seen ++ [sectoridxFilePath idx t.1 t.2]) idx t := by
  refine ⟨by simp, fun u hu => ?_⟩
  rcases mem_concat_file.mp hu with hu | ⟨-, rfl⟩
  · exact hlt u hu
  · exact le_rfl

/-- A file smaller than the largest before it leaves that one. -/
theorem Largest.concat {old : UInt64 × UInt8} (hold : Largest seen idx old)
    (hle : tag t.1 t.2 ≤ tag old.1 old.2) :
    Largest (seen ++ [sectoridxFilePath idx t.1 t.2]) idx old := by
  refine ⟨List.mem_append_left _ hold.1, fun u hu => ?_⟩
  rcases mem_concat_file.mp hu with hu | ⟨-, rfl⟩
  · exact hold.2 u hu
  · exact hle

/-! ### The loop -/

/-- A file that recovery leaves, of those it has looked at. -/
def Stays (dataAccess : DataAccess) (seen : List FileName) (n : FileName) : Prop :=
  ∃ (idx : SectorIdx) (t : UInt64 × UInt8), n = sectoridxFilePath idx t.1 t.2 ∧
    (dataAccess.lookup idx = some t ∨ t = (0, 0) ∧ Leads seen idx)

theorem stays_file : Stays dataAccess seen (sectoridxFilePath idx t.1 t.2) ↔
    dataAccess.lookup idx = some t ∨ t = (0, 0) ∧ Leads seen idx := by
  constructor
  · rintro ⟨j, u, hju, hu⟩
    obtain ⟨rfl, h₁, h₂⟩ := filePath_inj.mp hju
    obtain rfl : t = u := Prod.ext h₁ h₂
    exact hu
  · exact fun h => ⟨idx, t, rfl, h⟩

theorem not_stays_tmp {ts : UInt64} {wr : UInt8} :
    ¬ Stays dataAccess seen (sectoridxTmpFilePath idx ts wr) := by
  rintro ⟨j, u, hju, -⟩
  exact filePath_ne_tmp hju.symm

/-- How far recovery of the directory `dir₀` has come when it has looked at the names `seen`. -/
structure Swept (dir₀ : Directory FileName) (seen : List FileName) (dir : Directory FileName)
    (dataAccess : DataAccess) : Prop where
  largest : ∀ idx t, dataAccess.lookup idx = some t ↔ Largest seen idx t
  absent : ∀ idx, dataAccess.lookup idx = none →
    ∀ u : UInt64 × UInt8, sectoridxFilePath idx u.1 u.2 ∉ seen
  files : ∀ n c, dir.lookup n = some c ↔
    dir₀.lookup n = some c ∧ (n ∈ seen → Stays dataAccess seen n)

theorem Swept.init (dir₀ : Directory FileName) : Swept dir₀ [] dir₀ ∅ :=
  ⟨fun idx t => by simp [Largest], fun idx _ u => List.not_mem_nil, fun n c => by simp⟩

/-- A name is looked at and no file removed. -/
theorem Swept.files_keep (h : Swept dir₀ seen dir dataAccess)
    (hn : Stays dataAccess' (seen ++ [n]) n)
    (hsame : ∀ n' ∈ seen, Stays dataAccess seen n' ↔ Stays dataAccess' (seen ++ [n]) n')
    (n' : FileName) (c : List UInt8) : dir.lookup n' = some c ↔
      dir₀.lookup n' = some c ∧ (n' ∈ seen ++ [n] → Stays dataAccess' (seen ++ [n]) n') := by
  rw [h.files]
  refine and_congr_right fun _ => ⟨fun hseen hmem => ?_, fun hseen hmem => ?_⟩
  · rcases List.mem_append.mp hmem with hmem | hmem
    · exact (hsame n' hmem).mp (hseen hmem)
    · rw [List.mem_singleton.mp hmem]
      exact hn
  · exact (hsame n' hmem).mpr (hseen (List.mem_append_left _ hmem))

/-- A name is looked at and a file removed: the one of that name, or one looked at before. -/
theorem Swept.files_remove {x : FileName} (h : Swept dir₀ seen dir dataAccess)
    (hrem : dir.removeFile x = some dir') (hx : x ∈ seen ++ [n])
    (hgone : ¬ Stays dataAccess' (seen ++ [n]) x) (hn : n ≠ x → Stays dataAccess' (seen ++ [n]) n)
    (hsame : ∀ n' ∈ seen, n' ≠ x → (Stays dataAccess seen n' ↔ Stays dataAccess' (seen ++ [n]) n'))
    (n' : FileName) (c : List UInt8) : dir'.lookup n' = some c ↔
      dir₀.lookup n' = some c ∧ (n' ∈ seen ++ [n] → Stays dataAccess' (seen ++ [n]) n') := by
  rw [Directory.lookup_removeFile hrem]
  by_cases hne : n' = x
  · rw [if_pos hne, hne]
    simp [hx, hgone]
  · rw [if_neg hne, h.files]
    refine and_congr_right fun _ => ⟨fun hseen hmem => ?_, fun hseen hmem => ?_⟩
    · rcases List.mem_append.mp hmem with hmem | hmem
      · exact (hsame n' hmem hne).mp (hseen hmem)
      · obtain rfl := List.mem_singleton.mp hmem
        exact hn hne
    · exact (hsame n' hmem hne).mpr (hseen (List.mem_append_left _ hmem))

/-- A temporary file is removed. -/
theorem Swept.tmp {ts : UInt64} {wr : UInt8} (h : Swept dir₀ seen dir dataAccess)
    (hrem : dir.removeFile (sectoridxTmpFilePath idx ts wr) = some dir') :
    Swept dir₀ (seen ++ [sectoridxTmpFilePath idx ts wr]) dir' dataAccess := by
  have hother : ∀ (j : SectorIdx) (u : UInt64 × UInt8),
      sectoridxTmpFilePath idx ts wr ≠ sectoridxFilePath j u.1 u.2 := fun j u => filePath_ne_tmp.symm
  refine ⟨fun j u => ?_, fun j hj u hu => ?_, h.files_remove hrem (by simp) not_stays_tmp
    (fun hne => absurd rfl hne) fun n' _ _ => ?_⟩
  · rw [largest_concat_other (hother j)]
    exact h.largest j u
  · rcases List.mem_append.mp hu with hu | hu
    · exact h.absent j hj u hu
    · exact hother j u (List.mem_singleton.mp hu).symm
  · simp only [Stays, leads_concat]
    refine exists₂_congr fun j u => and_congr_right fun _ => or_congr_right (and_congr_right fun _ => ?_)
    exact ⟨Or.inl, fun h => h.resolve_right fun h => hother j (0, 0) h.1⟩

/-- A file of the sector `idx` is looked at, and the map changes at `idx` alone: the files seen before stay
    as they did, if those of the sector do. -/
theorem stays_concat (hother : ∀ j, j ≠ idx → dataAccess'.lookup j = dataAccess.lookup j)
    (hn : n ∈ seen) (hsector : ∀ u : UInt64 × UInt8, n = sectoridxFilePath idx u.1 u.2 →
      (dataAccess.lookup idx = some u ∨ u = (0, 0) ∧ Leads seen idx ↔
        dataAccess'.lookup idx = some u ∨ u = (0, 0) ∧ Leads seen idx)) :
    Stays dataAccess seen n ↔ Stays dataAccess' (seen ++ [sectoridxFilePath idx t.1 t.2]) n := by
  refine exists₂_congr fun j u => and_congr_right fun hju => ?_
  -- the sector has a file before the new one, which is therefore not the first
  have hleads : Leads (seen ++ [sectoridxFilePath idx t.1 t.2]) j ↔ Leads seen j := by
    rw [leads_concat]
    exact ⟨fun h => h.resolve_right fun hnew => hnew.2 u (hju ▸ hn), Or.inl⟩
  rw [hleads]
  rcases eq_or_ne j idx with rfl | hj
  · exact hsector u hju
  · rw [hother j hj]

/-- A file of the sector `idx` is looked at, and the largest tag of the sector is then `v`. -/
theorem Swept.file {v : UInt64 × UInt8} (h : Swept dir₀ seen dir dataAccess)
    (hother : ∀ j, j ≠ idx → dataAccess'.lookup j = dataAccess.lookup j)
    (hmap : dataAccess'.lookup idx = some v)
    (hlargest : Largest (seen ++ [sectoridxFilePath idx t.1 t.2]) idx v)
    (hfiles : ∀ n c, dir'.lookup n = some c ↔ dir₀.lookup n = some c ∧
      (n ∈ seen ++ [sectoridxFilePath idx t.1 t.2] →
        Stays dataAccess' (seen ++ [sectoridxFilePath idx t.1 t.2]) n)) :
    Swept dir₀ (seen ++ [sectoridxFilePath idx t.1 t.2]) dir' dataAccess' := by
  refine ⟨fun j u => ?_, fun j hj u hu => ?_, hfiles⟩
  · rcases eq_or_ne j idx with rfl | hne
    · rw [hmap, Option.some_inj]
      exact ⟨fun heq => heq ▸ hlargest, fun hu => hlargest.unique hu⟩
    · rw [hother j hne, h.largest, largest_concat_other]
      intro w hw
      exact hne (filePath_inj.mp hw).1.symm
  · have hne : j ≠ idx := by
      rintro rfl
      simp [hmap] at hj
    rcases mem_concat_file.mp hu with hu | ⟨hjidx, -⟩
    · exact h.absent j (hother j hne ▸ hj) u hu
    · exact hne hjidx

/-- A larger file than those before it, where the map has no entry or the tag `(0, 0)`. -/
theorem Swept.insert (h : Swept dir₀ seen dir dataAccess)
    (hold : (dataAccess.lookup idx).getD (0, 0) = (0, 0)) :
    Swept dir₀ (seen ++ [sectoridxFilePath idx t.1 t.2]) dir (dataAccess.insert idx t) := by
  -- the sector has no file yet, or just the one with the tag (0, 0), which leads it
  have hzero : ∀ u : UInt64 × UInt8, sectoridxFilePath idx u.1 u.2 ∈ seen →
      dataAccess.lookup idx = some (0, 0) ∧ u = (0, 0) := by
    intro u hu
    cases hlook : dataAccess.lookup idx with
    | none => exact absurd hu (h.absent idx hlook u)
    | some old =>
      rw [hlook, Option.getD_some] at hold
      subst hold
      have hle := ((h.largest idx _).mp hlook).2 u hu
      exact ⟨rfl, tag_inj_pair (le_antisymm hle (tag_zero_le u.1 u.2))⟩
  refine h.file (fun j hj => AList.lookup_insert_ne hj) (AList.lookup_insert _)
    (largest_concat_new fun u hu => ?_) (h.files_keep ?_ fun n hn => ?_)
  · rw [(hzero u hu).2]
    exact tag_zero_le t.1 t.2
  · exact stays_file.mpr (Or.inl (AList.lookup_insert _))
  · refine stays_concat (fun j hj => AList.lookup_insert_ne hj) hn fun u hu => ?_
    obtain ⟨hlook, rfl⟩ := hzero u (hu ▸ hn)
    have hlead : Leads seen idx := leads_of_largest ((h.largest idx _).mp hlook)
    exact ⟨fun _ => Or.inr ⟨rfl, hlead⟩, fun _ => Or.inr ⟨rfl, hlead⟩⟩

/-- A larger file than the one in the map, which is removed. -/
theorem Swept.replace (h : Swept dir₀ seen dir dataAccess) (hn : sectoridxFilePath idx t.1 t.2 ∉ seen)
    (hold : dataAccess.lookup idx = some u) (hnz : u ≠ (0, 0)) (hlt : tag u.1 u.2 < tag t.1 t.2)
    (hrem : dir.removeFile (sectoridxFilePath idx u.1 u.2) = some dir') :
    Swept dir₀ (seen ++ [sectoridxFilePath idx t.1 t.2]) dir' (dataAccess.insert idx t) := by
  have hlargest : Largest seen idx u := (h.largest idx u).mp hold
  have hne : t ≠ u := by
    rintro rfl
    exact lt_irrefl _ hlt
  refine h.file (fun j hj => AList.lookup_insert_ne hj) (AList.lookup_insert _)
    (largest_concat_new fun w hw => (hlargest.2 w hw).trans hlt.le)
    (h.files_remove hrem (List.mem_append_left _ hlargest.1) ?_ (fun _ => ?_) fun n hmem hnu => ?_)
  · rw [stays_file, AList.lookup_insert, Option.some_inj]
    rintro (heq | ⟨heq, -⟩)
    · exact hne heq
    · exact hnz heq
  · exact stays_file.mpr (Or.inl (AList.lookup_insert _))
  · refine stays_concat (fun j hj => AList.lookup_insert_ne hj) hmem fun w hw => or_congr_left ?_
    rw [hold, AList.lookup_insert, Option.some_inj, Option.some_inj]
    constructor
    · rintro rfl
      exact absurd hw hnu
    · rintro rfl
      exact absurd (hw ▸ hmem) hn

/-- A smaller file than the one in the map is removed. -/
theorem Swept.drop (h : Swept dir₀ seen dir dataAccess) (hn : sectoridxFilePath idx t.1 t.2 ∉ seen)
    (hold : dataAccess.lookup idx = some u) (hle : tag t.1 t.2 ≤ tag u.1 u.2)
    (hrem : dir.removeFile (sectoridxFilePath idx t.1 t.2) = some dir') :
    Swept dir₀ (seen ++ [sectoridxFilePath idx t.1 t.2]) dir' dataAccess := by
  have hlargest : Largest seen idx u := (h.largest idx u).mp hold
  refine h.file (fun _ _ => rfl) hold (hlargest.concat hle)
    (h.files_remove hrem (by simp) ?_ (fun hne => absurd rfl hne) fun n hmem _ =>
      stays_concat (fun _ _ => rfl) hmem fun _ _ => Iff.rfl)
  rw [stays_file, hold, Option.some_inj, leads_concat]
  rintro (rfl | ⟨rfl, hlead | ⟨-, hnone⟩⟩)
  · exact hn hlargest.1
  · exact hn hlead.mem
  · exact hnone u hlargest.1

/-- One round of recovery does not fail. -/
theorem Swept.next (h : Swept dir₀ seen dir dataAccess) (hnamed : Named dir₀) (hn : n ∉ seen)
    (hseen : ∀ n ∈ seen, ∃ c, dir₀.lookup n = some c) {c : List UInt8} (hc : dir₀.lookup n = some c) :
    ∃ dir' dataAccess', recoverEntry dir dataAccess n = some (dir', dataAccess') ∧
      Swept dir₀ (seen ++ [n]) dir' dataAccess' := by
  have hthere : dir.lookup n = some c := (h.files n c).mpr ⟨hc, fun hmem => absurd hmem hn⟩
  obtain ⟨idx, ts, wr, rfl | rfl⟩ := hnamed n c hc
  · rw [recoverEntry_file dir dataAccess idx (ts, wr)]
    by_cases hold : (dataAccess.lookup idx).getD (0, 0) = (0, 0)
    · rw [if_pos hold]
      exact ⟨dir, _, rfl, h.insert (t := (ts, wr)) hold⟩
    · rw [if_neg hold]
      obtain ⟨old, hlook⟩ : ∃ old, dataAccess.lookup idx = some old := by
        refine Option.ne_none_iff_exists'.mp fun hnone => hold ?_
        rw [hnone, Option.getD_none]
      rw [hlook, Option.getD_some] at hold ⊢
      by_cases hlt : tag old.1 old.2 < tag ts wr
      · rw [if_pos hlt]
        obtain ⟨co, hco⟩ : ∃ co, dir.lookup (sectoridxFilePath idx old.1 old.2) = some co := by
          obtain ⟨co, hco⟩ := hseen _ ((h.largest idx old).mp hlook).1
          exact ⟨co, (h.files _ co).mpr ⟨hco, fun _ => stays_file.mpr (Or.inl hlook)⟩⟩
        obtain ⟨dir', hrem⟩ := Directory.removeFile_isSome hco
        exact ⟨dir', dataAccess.insert idx (ts, wr), by rw [hrem]; rfl,
          h.replace (t := (ts, wr)) hn hlook hold hlt hrem⟩
      · rw [if_neg hlt]
        obtain ⟨dir', hrem⟩ := Directory.removeFile_isSome hthere
        exact ⟨dir', dataAccess, by rw [hrem]; rfl, h.drop (t := (ts, wr)) hn hlook (not_lt.mp hlt) hrem⟩
  · rw [recoverEntry_tmp]
    obtain ⟨dir', hrem⟩ := Directory.removeFile_isSome hthere
    exact ⟨dir', dataAccess, by rw [hrem]; rfl, h.tmp hrem⟩

/-- Recovery goes through any names of the directory without failing. -/
theorem Swept.run (hnamed : Named dir₀) (remaining : List FileName) :
    ∀ {seen dir dataAccess}, Swept dir₀ seen dir dataAccess → (seen ++ remaining).Nodup →
      (∀ n ∈ seen ++ remaining, ∃ c, dir₀.lookup n = some c) →
      ∃ dir' dataAccess', remaining.foldlM (fun s n => recoverEntry s.1 s.2 n) (dir, dataAccess) =
        some (dir', dataAccess') ∧ Swept dir₀ (seen ++ remaining) dir' dataAccess' := by
  induction remaining with
  | nil =>
    intro seen dir dataAccess h _ _
    exact ⟨dir, dataAccess, rfl, by rwa [List.append_nil]⟩
  | cons n remaining ih =>
    intro seen dir dataAccess h hnodup hthere
    have hn : n ∉ seen := fun hmem => List.disjoint_of_nodup_append hnodup hmem (List.mem_cons_self ..)
    obtain ⟨c, hc⟩ := hthere n (by simp)
    obtain ⟨dir₁, dataAccess₁, hstep, h₁⟩ :=
      h.next hnamed hn (fun n hn => hthere n (List.mem_append_left _ hn)) hc
    rw [List.append_cons] at hnodup hthere ⊢
    obtain ⟨dir', dataAccess', hrun, h'⟩ := ih h₁ hnodup hthere
    refine ⟨dir', dataAccess', ?_, h'⟩
    rw [List.foldlM_cons, hstep]
    exact hrun

/-! ### The end of recovery -/

/-- What recovery is to make of a directory: a map that sends every sector with a file to the largest tag
    among its files, and for each of these sectors the file with that tag, unchanged. -/
structure Restored (dir₀ dir : Directory FileName) (dataAccess : DataAccess) : Prop where
  sectors : ∀ idx, (∃ t, dataAccess.lookup idx = some t) ↔ ∃ t c, fileAt dir₀ idx t = some c
  largest : ∀ idx t, dataAccess.lookup idx = some t ↔ (∃ c, fileAt dir₀ idx t = some c) ∧
    ∀ u c, fileAt dir₀ idx u = some c → tag u.1 u.2 ≤ tag t.1 t.2
  files : ∀ n c, dir.lookup n = some c ↔ dir₀.lookup n = some c ∧
    ∃ idx t, n = sectoridxFilePath idx t.1 t.2 ∧ dataAccess.lookup idx = some t

theorem mem_listing (hlist : listing.Perm dir₀.keys) : n ∈ listing ↔ ∃ c, dir₀.lookup n = some c := by
  rw [hlist.mem_iff, ← AList.mem_keys, ← AList.lookup_isSome, Option.isSome_iff_exists]

/-- Once all names have been looked at, the map is right. -/
theorem Swept.restored (h : Swept dir₀ listing dir dataAccess) (hlist : listing.Perm dir₀.keys)
    (hleads : ∀ idx, Leads listing idx → dataAccess.lookup idx = some (0, 0)) :
    Restored dir₀ dir dataAccess := by
  refine ⟨fun idx => ⟨?_, ?_⟩, fun idx t => ?_, fun n c => ?_⟩
  · rintro ⟨t, ht⟩
    exact ⟨t, (mem_listing hlist).mp ((h.largest idx t).mp ht).1⟩
  · rintro ⟨t, c, hc⟩
    refine Option.ne_none_iff_exists'.mp fun hnone => ?_
    exact h.absent idx hnone t ((mem_listing hlist).mpr ⟨c, hc⟩)
  · rw [h.largest, Largest, mem_listing hlist]
    refine and_congr_right fun _ => forall_congr' fun u => ?_
    rw [mem_listing hlist]
    exact forall_exists_index
  · rw [h.files]
    refine and_congr_right fun hc => ⟨fun hstays => ?_, ?_⟩
    · obtain ⟨idx, t, rfl, ht | ⟨rfl, hlead⟩⟩ := hstays ((mem_listing hlist).mpr ⟨c, hc⟩)
      · exact ⟨idx, t, rfl, ht⟩
      · exact ⟨idx, (0, 0), rfl, hleads idx hlead⟩
    · rintro ⟨idx, t, rfl, ht⟩ _
      exact ⟨idx, t, rfl, Or.inl ht⟩

/-- CORRECT (recovery): whatever set of the manager's names the directory holds and in whatever order they
    are listed, recovery finishes with the largest tag of every sector in its map. -/
theorem sectorsCrashRecovery_swept (hnamed : Named dir₀) (hlist : listing.Perm dir₀.keys) :
    ∃ dir dataAccess, sectorsCrashRecovery dir₀ listing = some (dir, dataAccess) ∧
      Swept dir₀ listing dir dataAccess :=
  Swept.run hnamed listing (Swept.init dir₀) (hlist.nodup_iff.mpr dir₀.keys_nodup)
    fun _ hn => (mem_listing hlist).mp hn

/-- CORRECT (leftovers): recovery leaves exactly the files with the largest tags, with these tags in its map,
    if and only if no sector with several files has the one with the tag `(0, 0)` listed first. -/
theorem restored_iff (hnamed : Named dir₀) (hlist : listing.Perm dir₀.keys) :
    (∃ dir dataAccess, sectorsCrashRecovery dir₀ listing = some (dir, dataAccess) ∧
        Restored dir₀ dir dataAccess) ↔
      ∀ idx, Leads listing idx → ∀ t : UInt64 × UInt8, sectoridxFilePath idx t.1 t.2 ∈ listing →
        t = (0, 0) := by
  obtain ⟨dir, dataAccess, hdone, h⟩ := sectorsCrashRecovery_swept hnamed hlist
  constructor
  · rintro ⟨dir', dataAccess', hdone', hrest⟩ idx hlead t ht
    obtain ⟨rfl, rfl⟩ : dir = dir' ∧ dataAccess = dataAccess' := by
      simpa using hdone.symm.trans hdone'
    -- the leading file has stayed, so the map names it
    obtain ⟨c, hc⟩ := (mem_listing hlist).mp hlead.mem
    have hstays : dir.lookup (sectoridxFilePath idx 0 0) = some c :=
      (h.files _ c).mpr ⟨hc, fun _ => ⟨idx, (0, 0), rfl, Or.inr ⟨rfl, hlead⟩⟩⟩
    obtain ⟨-, j, u, hju, hu⟩ := (hrest.files _ c).mp hstays
    obtain ⟨rfl, h₁, h₂⟩ := filePath_inj.mp hju
    obtain rfl : (0, 0) = u := Prod.ext h₁ h₂
    exact tag_inj_pair (le_antisymm (((h.largest idx _).mp hu).2 t ht) (tag_zero_le t.1 t.2))
  · intro honly
    refine ⟨dir, dataAccess, hdone, h.restored hlist fun idx hlead => (h.largest idx _).mpr ⟨hlead.mem, ?_⟩⟩
    intro u hu
    rw [honly idx hlead u hu]

/-- Two files of sector 5, the older one with the tag `(0, 0)`. -/
def twoFiles : Directory FileName :=
  ((∅ : Directory FileName).fill (sectoridxFilePath 5 0 0) []).fill (sectoridxFilePath 5 5 1) []

theorem twoFiles_named : Named twoFiles := by
  intro n c hc
  rw [twoFiles, Directory.lookup_fill, Directory.lookup_fill] at hc
  split at hc
  · exact ⟨5, 5, 1, Or.inl ‹_›⟩
  · split at hc
    · exact ⟨5, 0, 0, Or.inl ‹_›⟩
    · simp at hc

/-- Listed in the other order, the older file is removed. -/
theorem twoFiles_restored : ∃ dir dataAccess,
    sectorsCrashRecovery twoFiles [sectoridxFilePath 5 5 1, sectoridxFilePath 5 0 0] = some (dir, dataAccess) ∧
      Restored twoFiles dir dataAccess := by
  refine (restored_iff twoFiles_named (List.Perm.refl _)).mpr fun idx hlead t ht => ?_
  exfalso
  have hlead' : Leads ([sectoridxFilePath 5 5 1] ++ [sectoridxFilePath 5 0 0]) idx := hlead
  rcases leads_concat.mp hlead' with hlead | ⟨heq, hnone⟩
  · have hzero := (filePath_inj.mp (List.mem_singleton.mp hlead.mem)).2.1
    exact absurd hzero (by decide)
  · obtain rfl := (filePath_inj.mp heq).1
    exact hnone (5, 1) (List.mem_singleton_self _)

/-- Listed first, the older file stays. -/
theorem twoFiles_leftover : Named twoFiles ∧
    [sectoridxFilePath 5 0 0, sectoridxFilePath 5 5 1].Perm twoFiles.keys ∧
      ¬ ∃ dir dataAccess,
        sectorsCrashRecovery twoFiles [sectoridxFilePath 5 0 0, sectoridxFilePath 5 5 1] =
          some (dir, dataAccess) ∧ Restored twoFiles dir dataAccess := by
  refine ⟨twoFiles_named, List.Perm.swap .., ?_⟩
  rintro ⟨dir, dataAccess, hrun, hrest⟩
  let first : DataAccess := AList.insert (5 : SectorIdx) (0, 0) ∅
  have hrounds : sectorsCrashRecovery twoFiles [sectoridxFilePath 5 0 0, sectoridxFilePath 5 5 1] =
      some (twoFiles, first.insert (5 : SectorIdx) (5, 1)) := by
    have h₁ : recoverEntry twoFiles ∅ (sectoridxFilePath 5 0 0) = some (twoFiles, first) :=
      recoverEntry_file _ _ 5 (0, 0)
    have h₂ : recoverEntry twoFiles first (sectoridxFilePath 5 5 1) =
      some (twoFiles, first.insert (5 : SectorIdx) (5, 1)) := recoverEntry_file _ _ 5 (5, 1)
    rw [sectorsCrashRecovery, List.foldlM_cons, h₁, Option.bind_eq_bind, Option.bind_some,
      List.foldlM_cons, h₂]
    rfl
  obtain ⟨rfl, rfl⟩ : twoFiles = dir ∧ first.insert (5 : SectorIdx) (5, 1) = dataAccess := by
    simpa using hrounds.symm.trans hrun
  have hstays : twoFiles.lookup (sectoridxFilePath 5 0 0) = some [] := by
    rw [twoFiles, Directory.lookup_fill, if_neg (by rw [filePath_inj]; decide), Directory.lookup_fill,
      if_pos rfl]
  obtain ⟨-, idx, t, ht, hmap⟩ := (hrest.files _ _).mp hstays
  obtain ⟨rfl, h₁, -⟩ := filePath_inj.mp ht
  rw [AList.lookup_insert, Option.some_inj] at hmap
  rw [← hmap] at h₁
  exact absurd h₁ (by decide)

end AtomicDisk.Storage
