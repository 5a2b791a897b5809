import AtomicDisk.Storage.CrashSafety

/-! What a directory holds for a sector, whatever state its process is in: the latest of the sector's files. A
    call of `write` changes it at one moment, the rename; a crash does not change it, a recovery does not, and
    it is what the registers are built from:

        stage       begun  created  filled │ renamed  updated  removed
        newest        u       u       u    │    s        s        s       (u in effect, s being written)

    So one file system call stands for the whole `write`, which is what makes it atomic. -/

namespace AtomicDisk.Storage
open Schemes

variable {dir dir' : Directory FileName} {idx : SectorIdx} {t t' : UInt64 × UInt8} {c c' : List UInt8}
  {file tmp : UInt64 × UInt8 → Option (List UInt8)} {entry : Option (UInt64 × UInt8)}
  {settled d d' : Option Sector} {s : Sector} {call : Option Call} {dataAccess dataAccess' : DataAccess}
  {n : FileName} {remaining : List FileName}

/-- The file of `d` is there, and no file of the sector is later. -/
structure Newest (file : UInt64 × UInt8 → Option (List UInt8)) (d : Option Sector) : Prop where
  here : ∀ u ∈ d, file u.2 = some u.1.data
  latest : ∀ t c, file t = some c → ∃ u ∈ d, tag t.1 t.2 ≤ sectorTag u

theorem Newest.unique (h : Newest file d) (h' : Newest file d') : d = d' := by
  have hsub : ∀ {a b : Option Sector}, Newest file a → Newest file b → ∀ u ∈ a, u ∈ b := by
    intro a b ha hb u hu
    obtain ⟨v, hv, huv⟩ := hb.latest u.2 _ (ha.here u hu)
    obtain ⟨u', hu', hvu⟩ := ha.latest v.2 _ (hb.here v hv)
    obtain rfl : u = u' := Option.mem_unique hu hu'
    have htag : u.2 = v.2 := Prod.ext_iff.mpr (tag_inj.mp (le_antisymm huv hvu))
    have hdata : u.1.data = v.1.data := by
      have hfile := ha.here u hu
      rw [htag, hb.here v hv] at hfile
      exact (Option.some.inj hfile).symm
    obtain ⟨⟨data⟩, ut⟩ := u
    obtain ⟨⟨data'⟩, vt⟩ := v
    obtain rfl : ut = vt := htag
    obtain rfl : data = data' := hdata
    exact hv
  exact Option.ext fun u => ⟨hsub h h' u, hsub h' h u⟩

theorem newest_none : Newest (fileAt ∅ idx) none :=
  ⟨by simp, by simp [fileAt]⟩

/-! ### While the manager is up -/

/-- The write that counts, given the write in effect and the call in progress: the latter once its file has
    its name. -/
def inEffect (settled : Option Sector) : Option Call → Option Sector
  | some ⟨s, .renamed⟩ | some ⟨s, .updated _⟩ | some ⟨s, .removed⟩ => some s
  | _ => settled

theorem Kept.newest (h : Kept file tmp entry settled call) : Newest file (inEffect settled call) := by
  have hsettled : present settled call = settled.toList → Newest file settled := by
    intro hpresent
    refine ⟨fun u hu => ?_, fun t c ht => ?_⟩
    · exact (h.files _ _).mpr ⟨u, by rw [hpresent]; exact Option.mem_toList.mpr hu, rfl, rfl⟩
    · obtain ⟨u, hu, rfl, -⟩ := (h.files t c).mp ht
      rw [hpresent] at hu
      exact ⟨u, Option.mem_toList.mp hu, le_refl _⟩
  have hnew : ∀ s, s ∈ call.map Call.sector → s ∈ present settled call → Newest file (some s) := by
    intro s hs hpresent
    obtain ⟨k, hk, rfl⟩ := Option.map_eq_some_iff.mp hs
    refine ⟨fun u hu => ?_, fun t c ht => ?_⟩
    · obtain rfl := Option.mem_some_iff.mp hu
      exact (h.files _ _).mpr ⟨_, hpresent, rfl, rfl⟩
    · obtain ⟨u, hu, rfl, -⟩ := (h.files t c).mp ht
      refine ⟨_, rfl, ?_⟩
      rcases mem_present hu with hu | hu
      · exact (h.later k hk u hu).le
      · obtain rfl : u = k.sector := Option.mem_unique hu hs
        exact le_refl _
  unfold inEffect
  split
  · exact hnew _ rfl (by simp [present])
  · exact hnew _ rfl (by simp [present])
  · exact hnew _ rfl (by simp [present])
  · rename_i h₁ h₂ h₃
    refine hsettled ?_
    unfold present
    split
    · exact absurd rfl (h₁ _)
    · exact absurd rfl (h₂ _ _)
    · exact absurd rfl (h₃ _)
    · rfl

/-- The rename is the step of a call at which the write begins to count. -/
theorem inEffect_advance {c c' : Call} {m m' : SectorsManagerState} (h : c.advance idx m = some (m', c')) :
    inEffect settled (some c') = if c.stage = .filled then some c.sector else inEffect settled (some c) := by
  obtain ⟨⟨data, ts, wr⟩, stage⟩ := c
  cases stage with
  | begun | created =>
    obtain ⟨-, rfl⟩ := Prod.mk.inj (Option.some.inj h)
    simp [inEffect]
  | filled | renamed =>
    obtain ⟨x, -, heq⟩ := Option.map_eq_some_iff.mp h
    obtain ⟨-, rfl⟩ := Prod.mk.inj heq
    simp [inEffect]
  | updated old =>
    simp only [Call.advance] at h
    split at h
    · obtain ⟨x, -, heq⟩ := Option.map_eq_some_iff.mp h
      obtain ⟨-, rfl⟩ := Prod.mk.inj heq
      simp [inEffect]
    · obtain ⟨-, rfl⟩ := Prod.mk.inj (Option.some.inj h)
      simp [inEffect]
  | removed =>
    obtain ⟨-, rfl⟩ := Prod.mk.inj (Option.some.inj h)
    simp

/-! ### In recovery -/

theorem Newest.remove (h : Newest file d) (hlt : tag t.1 t.2 < tag t'.1 t'.2) (ht' : file t' = some c') :
    Newest (Function.update file t none) d := by
  refine ⟨fun u hu => ?_, fun v c hv => ?_⟩
  · obtain ⟨u', hu', hle⟩ := h.latest t' c' ht'
    obtain rfl : u = u' := Option.mem_unique hu hu'
    have hne : u.2 ≠ t := by
      rintro rfl
      exact absurd (hlt.trans_le hle) (lt_irrefl _)
    rw [Function.update_of_ne hne]
    exact h.here u hu
  · rw [Function.update_apply] at hv
    split at hv
    · simp at hv
    · exact h.latest v c hv

/-- A round of recovery removes a file of a sector only if a later one is there. -/
theorem Scanned.removes (h : Scanned dir dataAccess (n :: remaining)) (hnamed : Named dir)
    (hs : recoverEntry dir dataAccess n = some (dir', dataAccess')) (j : SectorIdx) :
    fileAt dir' j = fileAt dir j ∨ ∃ t t' c', tag t.1 t.2 < tag t'.1 t'.2 ∧ fileAt dir j t' = some c' ∧
      fileAt dir' j = Function.update (fileAt dir j) t none := by
  obtain ⟨c, hc⟩ := h.ahead n (List.mem_cons_self ..)
  obtain ⟨idx, ts, wr, rfl | rfl⟩ := hnamed n c hc
  · rw [recoverEntry_file dir dataAccess idx (ts, wr)] at hs
    split at hs
    · obtain ⟨rfl, -⟩ := Prod.mk.inj (Option.some.inj hs)
      exact Or.inl rfl
    · rename_i hnz
      obtain ⟨old, hold⟩ : ∃ old, dataAccess.lookup idx = some old := by
        cases hold : dataAccess.lookup idx with
        | none => simp [hold] at hnz
        | some old => exact ⟨old, rfl⟩
      obtain ⟨-, hbehind, co, hco⟩ := h.entries idx old hold
      rw [hold] at hs
      simp only [Option.getD_some] at hs
      split at hs
      · rename_i hlt
        obtain ⟨dir₁, hrem, heq⟩ := Option.map_eq_some_iff.mp hs
        obtain ⟨rfl, -⟩ := Prod.mk.inj heq
        rw [fileAt_removeFile hrem]
        split
        · rename_i hj
          subst hj
          exact Or.inr ⟨old, (ts, wr), c, hlt, hc, rfl⟩
        · exact Or.inl rfl
      · rename_i hlt
        obtain ⟨dir₁, hrem, heq⟩ := Option.map_eq_some_iff.mp hs
        obtain ⟨rfl, -⟩ := Prod.mk.inj heq
        -- the two files have different names, so the one in the map is later
        have hlt' : tag ts wr < tag old.1 old.2 := by
          refine lt_of_le_of_ne (not_lt.mp hlt) fun heq => hbehind ?_
          obtain ⟨rfl, rfl⟩ := tag_inj.mp heq
          exact List.mem_cons_self ..
        rw [fileAt_removeFile (t := (ts, wr)) hrem]
        split
        · rename_i hj
          subst hj
          exact Or.inr ⟨(ts, wr), old, co, hlt', hco, rfl⟩
        · exact Or.inl rfl
  · rw [recoverEntry_tmp] at hs
    obtain ⟨dir₁, hrem, heq⟩ := Option.map_eq_some_iff.mp hs
    obtain ⟨rfl, -⟩ := Prod.mk.inj heq
    left
    funext u
    rw [fileAt, Directory.lookup_removeFile hrem, if_neg filePath_ne_tmp, fileAt]

theorem Newest.recover (h : Newest (fileAt dir idx) d) (hscan : Scanned dir dataAccess (n :: remaining))
    (hnamed : Named dir) (hs : recoverEntry dir dataAccess n = some (dir', dataAccess')) :
    Newest (fileAt dir' idx) d := by
  rcases hscan.removes hnamed hs idx with heq | ⟨t, t', c', hlt, ht', heq⟩
  · rw [heq]
    exact h
  · rw [heq]
    exact h.remove hlt ht'

/-- An uninterrupted recovery from a sound state completes. It leaves no file changed, and keeps the latest
    of each sector. -/
theorem Sound.recovers {ledger : Ledger} (h : Sound ⟨dir, .recovering dataAccess remaining, ledger⟩) :
    ∃ dir' dataAccess', remaining.foldlM (fun s fileName => recoverEntry s.1 s.2 fileName) (dir, dataAccess) =
        some (dir', dataAccess') ∧ Sound ⟨dir', .recovering dataAccess' [], ledger⟩ ∧
      (∀ idx t c, fileAt dir' idx t = some c → fileAt dir idx t = some c) ∧
      ∀ idx d, Newest (fileAt dir idx) d → Newest (fileAt dir' idx) d := by
  induction remaining generalizing dir dataAccess with
  | nil => exact ⟨dir, dataAccess, rfl, h, fun _ _ _ hc => hc, fun _ _ hd => hd⟩
  | cons n remaining ih =>
    obtain ⟨dir₁, dataAccess₁, hentry, hsound⟩ := h.recover
    obtain ⟨dir₂, dataAccess₂, hfold, hsound₂, hfiles, hnewest⟩ := ih hsound
    refine ⟨dir₂, dataAccess₂, by rw [List.foldlM_cons, hentry]; exact hfold, hsound₂,
      fun idx t c hc => ?_, fun idx d hd => hnewest idx d (hd.recover h.consistent.1 h.named hentry)⟩
    have hc₁ := hfiles idx t c hc
    rcases h.consistent.1.removes h.named hentry idx with heq | ⟨u, -, -, -, -, heq⟩
    · rwa [heq] at hc₁
    · rw [heq, Function.update_apply] at hc₁
      split at hc₁
      · simp at hc₁
      · exact hc₁

/-! ### At the end of recovery -/

theorem Newest.found (h : Newest (fileAt dir idx) d) (hscan : Scanned dir dataAccess []) :
    found ⟨dir, dataAccess⟩ idx = d :=
  (hscan.keptIn idx).newest.unique h

/-- What `build_atomic_register` reads. -/
theorem Newest.reads (h : Newest (fileAt dir idx) d) (hscan : Scanned dir dataAccess [])
    (hfull : ∀ t c, fileAt dir idx t = some c → c.length = 4096) :
    ∃ v, (SectorsManagerState.mk dir dataAccess).readData idx = some v ∧
      (v, (SectorsManagerState.mk dir dataAccess).readMetadata idx) = d.getD (.zeros, 0, 0) := by
  have hfound := h.found hscan
  cases d with
  | none =>
    rw [hscan.found_eq_none] at hfound
    exact ⟨.zeros, by simp [SectorsManagerState.readData, hfound],
      by simp [SectorsManagerState.readMetadata, hfound]⟩
  | some u =>
    obtain ⟨hmap, hfile⟩ := found_data hfound
    have hread : dir.readExact (sectoridxFilePath idx u.2.1 u.2.2) 4096 = some u.1.data := by
      rw [← hfull u.2 _ hfile]
      exact Directory.readExact_full hfile
    exact ⟨u.1, by simp [SectorsManagerState.readData, hmap, hread],
      by simp [SectorsManagerState.readMetadata, hmap]⟩

end AtomicDisk.Storage
