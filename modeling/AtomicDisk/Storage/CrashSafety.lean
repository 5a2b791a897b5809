import AtomicDisk.Storage.Recovery

/-! Crash atomicity: after any run of writes, crashes and recoveries, also interrupted ones, a completed
    recovery has found for each sector, as a whole, the write that was in effect or the one that was in
    progress. The invariant is that of `WriteSteps` while the manager is up and that of `Recovery` from
    the crash on; each event keeps it. -/

namespace AtomicDisk.Storage
open Schemes

variable {dir : Directory FileName} {idx : SectorIdx} {s : Sector} {dataAccess : DataAccess}

/-! ### Runs -/

/-- The writes in progress, or interrupted by the last crash. -/
def unfinished (w : World) (idx : SectorIdx) : Option Sector :=
  match w.phase with
  | .up _ calls => (calls idx).map Call.sector
  | _ => w.ledger.interrupted idx

/-- The ledger follows the rule for tags: they are not (0, 0), and grow from the last completed write
    through the one in effect to the last one begun. -/
structure Ordered (w : World) : Prop where
  settled : ∀ idx, ∀ u ∈ w.ledger.settled idx, u.2 ≠ (0, 0) ∧
    ∃ b ∈ w.ledger.begun idx, sectorTag u ≤ sectorTag b
  active : ∀ idx, ∀ u ∈ unfinished w idx, u.2 ≠ (0, 0) ∧
    ∃ b ∈ w.ledger.begun idx, sectorTag u ≤ sectorTag b
  completed : ∀ idx, ∀ u ∈ w.ledger.completed idx,
    ∃ v ∈ w.ledger.settled idx, sectorTag u ≤ sectorTag v

/-- What holds of the directory in each phase. -/
def Consistent (w : World) : Prop :=
  match w.phase with
  | .up dataAccess calls => ∀ idx, KeptIn ⟨w.dir, dataAccess⟩ idx (w.ledger.settled idx) (calls idx)
  | .recovering dataAccess remaining => Scanned w.dir dataAccess remaining ∧
      ∀ idx, Recoverable (fileAt w.dir idx) (w.ledger.settled idx) (w.ledger.interrupted idx)
  | .down => ∀ idx, Recoverable (fileAt w.dir idx) (w.ledger.settled idx) (w.ledger.interrupted idx)
  | .panicked => False

/-- The invariant of all runs. -/
structure Sound (w : World) : Prop where
  named : Named w.dir
  ordered : Ordered w
  consistent : Consistent w

variable {w w' : World} {calls : SectorIdx → Option Call} {ledger : Ledger} {remaining : List FileName}

/-- What is bounded by the last write begun is bounded by a larger one begun after it. -/
theorem bounded_begin {begun : SectorIdx → Option Sector}
    (hlarger : ∀ b ∈ begun idx, sectorTag b < sectorTag s) {j : SectorIdx} {u : Sector}
    (hu : ∃ b ∈ begun j, sectorTag u ≤ sectorTag b) :
    ∃ b ∈ Function.update begun idx (some s) j, sectorTag u ≤ sectorTag b := by
  obtain ⟨b, hb, hle⟩ := hu
  rcases eq_or_ne j idx with rfl | hj
  · exact ⟨s, by simp, hle.trans (hlarger b hb).le⟩
  · exact ⟨b, by rwa [Function.update_of_ne hj], hle⟩

/-- A write is begun: its tag is larger than all before it. -/
theorem Sound.begin (h : Sound ⟨dir, .up dataAccess calls, ledger⟩) (hcall : calls idx = none)
    (hnz : s.2 ≠ (0, 0)) (hlarger : ∀ u ∈ ledger.begun idx, sectorTag u < sectorTag s) :
    Sound ⟨dir, .up dataAccess (Function.update calls idx (some ⟨s, .begun⟩)),
      { ledger with begun := Function.update ledger.begun idx (some s) }⟩ := by
  refine ⟨h.named, ⟨fun j u hu => ?_, fun j u hu => ?_, h.ordered.completed⟩, fun j => ?_⟩
  · obtain ⟨hunz, hb⟩ := h.ordered.settled j u hu
    exact ⟨hunz, bounded_begin hlarger hb⟩
  · rcases eq_or_ne j idx with rfl | hj
    · obtain rfl : s = u := by simpa [unfinished] using hu
      exact ⟨hnz, s, by simp, le_refl _⟩
    · obtain ⟨hunz, hb⟩ := h.ordered.active j u (by simpa [unfinished, Function.update_of_ne hj] using hu)
      exact ⟨hunz, bounded_begin hlarger hb⟩
  · rcases eq_or_ne j idx with rfl | hj
    · have hkept := h.consistent j
      rw [hcall] at hkept
      rw [Function.update_self]
      refine Kept.begin hkept fun u hu => ?_
      obtain ⟨-, b, hb, hle⟩ := h.ordered.settled j u hu
      exact hle.trans_lt (hlarger b hb)
    · rw [Function.update_of_ne hj]
      exact h.consistent j

/-- A call makes its next step, and does not panic. -/
theorem Sound.advance {c : Call} (h : Sound ⟨dir, .up dataAccess calls, ledger⟩)
    (hcall : calls idx = some c) : ∃ m c', c.advance idx ⟨dir, dataAccess⟩ = some (m, c') ∧
      Sound ⟨m.dir, .up m.dataAccess (Function.update calls idx (some c')), ledger⟩ := by
  have hkept := h.consistent idx
  rw [hcall] at hkept
  obtain ⟨m, c', hadv, hsec, hkept', hsame⟩ := hkept.advance fun u hu => (h.ordered.settled idx u hu).1
  refine ⟨m, c', hadv, h.named.advance (m := ⟨dir, dataAccess⟩) hadv,
    ⟨h.ordered.settled, fun j u hu => h.ordered.active j u ?_, h.ordered.completed⟩, fun j => ?_⟩
  · rcases eq_or_ne j idx with rfl | hj
    · simpa [unfinished, hcall, hsec] using hu
    · simpa [unfinished, Function.update_of_ne hj] using hu
  · rcases eq_or_ne j idx with rfl | hj
    · rw [Function.update_self]
      exact hkept'
    · rw [Function.update_of_ne hj]
      exact KeptIn.same (h.consistent j) (hsame j hj)

/-- Some of the data reaches the temporary file. -/
theorem Sound.fillPartly (h : Sound ⟨dir, .up dataAccess calls, ledger⟩)
    (hcall : calls idx = some ⟨s, .created⟩) (c : List UInt8) :
    Sound ⟨dir.fill (sectoridxTmpFilePath idx s.2.1 s.2.2) c, .up dataAccess calls, ledger⟩ := by
  refine ⟨h.named.fill idx s.2.1 s.2.2 _, ⟨h.ordered.settled, h.ordered.active, h.ordered.completed⟩,
    fun j => ?_⟩
  have hkept := h.consistent j
  rw [KeptIn, fileAt_fill_tmp, tmpAt_fill_tmp]
  split
  · rename_i hj
    rw [hj, hcall] at hkept ⊢
    exact Kept.fillPartly hkept c
  · exact hkept

/-- A call returns. -/
theorem Sound.return (h : Sound ⟨dir, .up dataAccess calls, ledger⟩)
    (hcall : calls idx = some ⟨s, .removed⟩) :
    Sound ⟨dir, .up dataAccess (Function.update calls idx none),
      { ledger with
        completed := Function.update ledger.completed idx (some s)
        settled := Function.update ledger.settled idx (some s) }⟩ := by
  refine ⟨h.named, ⟨fun j u hu => ?_, fun j u hu => ?_, fun j u hu => ?_⟩, fun j => ?_⟩
  · rcases eq_or_ne j idx with rfl | hj
    · obtain rfl : s = u := by simpa using hu
      exact h.ordered.active j s (by simp [unfinished, hcall])
    · exact h.ordered.settled j u (by simpa [Function.update_of_ne hj] using hu)
  · rcases eq_or_ne j idx with rfl | hj
    · simp [unfinished] at hu
    · exact h.ordered.active j u (by simpa [unfinished, Function.update_of_ne hj] using hu)
  · rcases eq_or_ne j idx with rfl | hj
    · obtain rfl : s = u := by simpa using hu
      exact ⟨s, by simp, le_refl _⟩
    · simp only [Function.update_of_ne hj] at hu ⊢
      exact h.ordered.completed j u hu
  · have hkept := h.consistent j
    rcases eq_or_ne j idx with rfl | hj
    · rw [hcall] at hkept
      simp only [Function.update_self]
      exact Kept.return hkept
    · simp only [Function.update_of_ne hj]
      exact hkept

/-- The process starts again, and lists the directory. -/
theorem Sound.restart {listing : List FileName} (h : Sound ⟨dir, .down, ledger⟩)
    (hperm : listing.Perm dir.keys) : Sound ⟨dir, .recovering ∅ listing, ledger⟩ := by
  have hmem : ∀ n, n ∈ listing ↔ ∃ c, dir.lookup n = some c := by
    intro n
    rw [hperm.mem_iff, ← AList.mem_keys, ← AList.lookup_isSome, Option.isSome_iff_exists]
  refine ⟨h.named, ⟨h.ordered.settled, h.ordered.active, h.ordered.completed⟩,
    ⟨hperm.nodup_iff.mpr dir.keys_nodup, fun n hn => (hmem n).mp hn,
      fun n c hc => Or.inl ((hmem n).mpr ⟨c, hc⟩), fun j t ht => ?_⟩, h.consistent⟩
  simp at ht

/-- A round of recovery, which does not panic. -/
theorem Sound.recover {n : FileName} (h : Sound ⟨dir, .recovering dataAccess (n :: remaining), ledger⟩) :
    ∃ dir' dataAccess', recoverEntry dir dataAccess n = some (dir', dataAccess') ∧
      Sound ⟨dir', .recovering dataAccess' remaining, ledger⟩ := by
  obtain ⟨hscan, hrec⟩ := h.consistent
  have hnz : ∀ j u, u ∈ ledger.settled j ∨ u ∈ ledger.interrupted j → u.2 ≠ (0, 0) := by
    rintro j u (hu | hu)
    · exact (h.ordered.settled j u hu).1
    · exact (h.ordered.active j u hu).1
  obtain ⟨dir', dataAccess', hnext, hscan', hnamed', hrec'⟩ := hscan.next h.named hrec hnz
  exact ⟨dir', dataAccess', hnext, hnamed',
    ⟨h.ordered.settled, h.ordered.active, h.ordered.completed⟩, hscan', hrec'⟩

/-- What recovery has found is not older than the last completed write. -/
theorem Sound.found_later (h : Sound ⟨dir, .recovering dataAccess [], ledger⟩) {j : SectorIdx}
    {u : Sector} (hu : u ∈ ledger.completed j) :
    ∃ v ∈ found ⟨dir, dataAccess⟩ j, sectorTag u ≤ sectorTag v := by
  obtain ⟨hscan, hrec⟩ := h.consistent
  obtain ⟨v, hv, hle⟩ := h.ordered.completed j u hu
  rcases found_cases hscan (hrec j) with heq | ⟨y, hy, heq⟩
  · exact ⟨v, heq.trans hv, hle⟩
  · exact ⟨y, heq, hle.trans ((hrec j).later y hy v hv).le⟩

/-- Recovery completes. -/
theorem Sound.recovered (h : Sound ⟨dir, .recovering dataAccess [], ledger⟩) :
    Sound ⟨dir, .up dataAccess fun _ => none,
      { ledger with settled := found ⟨dir, dataAccess⟩, interrupted := fun _ => none }⟩ := by
  obtain ⟨hscan, hrec⟩ := h.consistent
  refine ⟨h.named, ⟨fun j u hu => ?_, fun j u hu => ?_, fun j u hu => h.found_later hu⟩, hscan.keptIn⟩
  · rcases found_cases hscan (hrec j) with heq | ⟨v, hv, heq⟩
    · exact h.ordered.settled j u (heq ▸ hu)
    · obtain rfl : v = u := Option.some.inj (heq.symm.trans hu)
      exact h.ordered.active j v hv
  · simp [unfinished] at hu

theorem sound_init : Sound init :=
  ⟨by simp [Named, init], ⟨by simp [init], by simp [init, unfinished], by simp [init]⟩,
    fun _ => ⟨by simp [init, fileAt], by simp [init], by simp [init]⟩⟩

theorem sound_step {e : Event} (h : Sound w) (hs : Stepped w e w') : Sound w' := by
  cases hs with
  | begin hcall hnz hlarger => exact h.begin hcall hnz hlarger
  | advance hcall hadv =>
    obtain ⟨m, c', hadv', hsound⟩ := h.advance hcall
    obtain ⟨rfl, rfl⟩ := Prod.mk.inj (Option.some.inj (hadv'.symm.trans hadv))
    exact hsound
  | advancePanics hcall hadv =>
    obtain ⟨m, c', hadv', -⟩ := h.advance hcall
    simp [hadv] at hadv'
  | fillPartly hcall => exact h.fillPartly hcall _
  | «return» hcall => exact h.return hcall
  | crash =>
    exact ⟨h.named, ⟨h.ordered.settled, h.ordered.active, h.ordered.completed⟩,
      fun j => Kept.recoverable (h.consistent j)⟩
  | crashAgain =>
    exact ⟨h.named, ⟨h.ordered.settled, h.ordered.active, h.ordered.completed⟩, h.consistent.2⟩
  | restart hperm => exact h.restart hperm
  | recovered => exact h.recovered
  | recover hentry =>
    obtain ⟨dir', dataAccess', hentry', hsound⟩ := h.recover
    obtain ⟨rfl, rfl⟩ := Prod.mk.inj (Option.some.inj (hentry'.symm.trans hentry))
    exact hsound
  | recoverPanics hentry =>
    obtain ⟨dir', dataAccess', hentry', -⟩ := h.recover
    simp [hentry] at hentry'

variable {tr : List (Entry World Event Unit)}

theorem sound (hr : StorageRun tr w) : Sound w :=
  hr.invariant (I := fun _ w => Sound w) sound_init fun _ _ _ h _ hs => sound_step h (step_stepped hs)

/-! ### Interrupted writes -/

/-- The write was in progress at a crash. -/
def CutShort (tr : List (Entry World Event Unit)) (idx : SectorIdx) (v : Sector) : Prop :=
  ∃ y ∈ tr, y.event = .crash ∧ ∃ dataAccess calls, y.pre.phase = .up dataAccess calls ∧
    v ∈ (calls idx).map Call.sector

theorem CutShort.append {tr' : List (Entry World Event Unit)} {v : Sector} :
    CutShort tr idx v → CutShort (tr ++ tr') idx v
  | ⟨y, hy, hcut⟩ => ⟨y, List.mem_append_left _ hy, hcut⟩

/-- The write in effect is the last completed one or was in progress at a crash, and the interrupted
    ones were. -/
structure Traced (tr : List (Entry World Event Unit)) (w : World) : Prop where
  settled : ∀ idx, w.ledger.settled idx = w.ledger.completed idx ∨
    ∃ v ∈ w.ledger.settled idx, CutShort tr idx v
  interrupted : ∀ idx, ∀ v ∈ w.ledger.interrupted idx, CutShort tr idx v

theorem Traced.settled_append {tr' : List (Entry World Event Unit)} (h : Traced tr w) (idx : SectorIdx) :
    w.ledger.settled idx = w.ledger.completed idx ∨
      ∃ v ∈ w.ledger.settled idx, CutShort (tr ++ tr') idx v := by
  rcases h.settled idx with heq | ⟨v, hv, hcut⟩
  · exact Or.inl heq
  · exact Or.inr ⟨v, hv, hcut.append⟩

/-- A step that does not change the ledger, except for what is begun. -/
theorem Traced.append {tr' : List (Entry World Event Unit)} (h : Traced tr w)
    (hsettled : w'.ledger.settled = w.ledger.settled)
    (hcompleted : w'.ledger.completed = w.ledger.completed)
    (hinterrupted : w'.ledger.interrupted = w.ledger.interrupted) : Traced (tr ++ tr') w' := by
  refine ⟨fun idx => ?_, fun idx v hv => ?_⟩
  · rw [hsettled, hcompleted]
    exact h.settled_append idx
  · rw [hinterrupted] at hv
    exact (h.interrupted idx v hv).append

theorem traced_step {x : Entry World Event Unit} (hsound : Sound x.pre) (h : Traced tr x.pre)
    (hs : Stepped x.pre x.event x.post) : Traced (tr ++ [x]) x.post := by
  obtain ⟨w, e, o, w'⟩ := x
  simp only at hsound h hs
  cases hs with
  | @«return» dir dataAccess calls ledger idx s =>
    refine ⟨fun j => ?_, fun j v hv => (h.interrupted j v hv).append⟩
    rcases eq_or_ne j idx with rfl | hj
    · exact Or.inl (by simp)
    · simp only [Function.update_of_ne hj]
      exact h.settled_append j
  | @crash dir dataAccess calls =>
    refine ⟨fun j => h.settled_append j, fun j v hv => ?_⟩
    exact ⟨_, List.mem_append_right _ (List.mem_singleton_self _), rfl, dataAccess, calls, rfl, hv⟩
  | recovered =>
    obtain ⟨hscan, hrec⟩ := hsound.consistent
    refine ⟨fun j => ?_, fun j v hv => by simp at hv⟩
    rcases found_cases hscan (hrec j) with heq | ⟨v, hv, heq⟩
    · simp only [heq]
      exact h.settled_append j
    · exact Or.inr ⟨v, heq, (h.interrupted j v hv).append⟩
  | _ => exact h.append rfl rfl rfl

theorem traced (hr : StorageRun tr w) : Traced tr w :=
  hr.invariant (I := Traced) ⟨fun _ => Or.inl rfl, by simp [init]⟩
    fun _ _ hr h _ hs => traced_step (sound hr) h (step_stepped hs)

/-! ### The outcome of recovery -/

/-- What a completed recovery leaves, given the run before it and the ledger. -/
structure Recovered (tr : List (Entry World Event Unit)) (ledger : Ledger) (m : SectorsManagerState) :
    Prop where
  /-- the sector is as a whole the write in effect or the one in progress at the crash -/
  whole : ∀ idx, found m idx = ledger.settled idx ∨ ∃ v ∈ ledger.interrupted idx, found m idx = some v
  /-- also when earlier recoveries are not counted: it is the last completed write, or one that was in
      progress at a crash -/
  source : ∀ idx, found m idx = ledger.completed idx ∨ ∃ v ∈ found m idx, CutShort tr idx v
  /-- never older than the last completed write -/
  noOlder : ∀ idx, ∀ u ∈ ledger.completed idx, ∃ v ∈ found m idx, sectorTag u ≤ sectorTag v
  /-- the directory has the files of what is found, and nothing else -/
  files : ∀ n, (∃ c, m.dir.lookup n = some c) ↔
    ∃ idx, ∃ v ∈ found m idx, n = sectoridxFilePath idx v.2.1 v.2.2
  metadata : ∀ idx, m.readMetadata idx = ((found m idx).map Prod.snd).getD (0, 0)
  unwritten : ∀ idx, found m idx = none → m.readData idx = some .zeros
  data : ∀ idx, ∀ v ∈ found m idx, v.1.data.length = 4096 → m.readData idx = some v.1

theorem Scanned.found_eq_none (h : Scanned dir dataAccess []) :
    found ⟨dir, dataAccess⟩ idx = none ↔ dataAccess.lookup idx = none := by
  cases ht : dataAccess.lookup idx with
  | none => simp [found, ht]
  | some t =>
    obtain ⟨c, hc⟩ := (h.file_iff idx t).mpr ht
    rw [fileAt] at hc
    simp [found, ht, hc]

theorem Scanned.files (h : Scanned dir dataAccess []) (n : FileName) :
    (∃ c, dir.lookup n = some c) ↔
      ∃ idx, ∃ v ∈ found ⟨dir, dataAccess⟩ idx, n = sectoridxFilePath idx v.2.1 v.2.2 := by
  constructor
  · rintro ⟨c, hc⟩
    rcases h.behind n c hc with hmem | ⟨idx, t, rfl, ht⟩
    · simp at hmem
    · exact ⟨idx, (⟨c⟩, t), by simp [found, ht, hc], rfl⟩
  · rintro ⟨idx, v, hv, rfl⟩
    exact ⟨_, (found_data hv).2⟩

/-- When the listing is exhausted, recovery has done its work. -/
theorem Sound.outcome (h : Sound ⟨dir, .recovering dataAccess [], ledger⟩)
    (htraced : Traced tr ⟨dir, .recovering dataAccess [], ledger⟩) :
    Recovered tr ledger ⟨dir, dataAccess⟩ := by
  obtain ⟨hscan, hrec⟩ := h.consistent
  refine ⟨fun idx => found_cases hscan (hrec idx), fun idx => ?_, fun idx u hu => h.found_later hu,
    hscan.files, fun idx => ?_, fun idx hnone => ?_, fun idx v hv hlen => ?_⟩
  · rcases found_cases hscan (hrec idx) with heq | ⟨v, hv, heq⟩
    · rw [heq]
      exact htraced.settled idx
    · exact Or.inr ⟨v, heq, htraced.interrupted idx v hv⟩
  · rw [SectorsManagerState.readMetadata, (hscan.keptIn idx).mapEntry]
    rfl
  · rw [hscan.found_eq_none] at hnone
    simp [SectorsManagerState.readData, hnone]
  · obtain ⟨hmap, hfile⟩ := found_data hv
    rw [fileAt] at hfile
    simp only [SectorsManagerState.readData, hmap]
    rw [← hlen, Directory.readExact_full hfile]
    rfl

/-- CORRECT (crash atomicity): in every run the manager does not panic, and every completed recovery
    has found each sector as a whole, not older than its last completed write, with exactly one file for
    each sector found. -/
theorem recovery_atomic (hr : StorageRun tr w) : w.phase ≠ .panicked ∧
    ∀ before x after, tr = before ++ x :: after → x.event = .recover →
      ∀ dataAccess calls, x.post.phase = .up dataAccess calls →
        Recovered before x.pre.ledger ⟨x.post.dir, dataAccess⟩ := by
  refine ⟨fun hph => ?_, fun before x after htr hevent dataAccess calls hpost => ?_⟩
  · have hcons := (sound hr).consistent
    rwa [Consistent, hph] at hcons
  · obtain ⟨hpre, -, hs⟩ := hr.split htr
    have hsound := sound hpre
    have htraced := traced hpre
    have hstep := step_stepped hs
    obtain ⟨pre, e, o, post⟩ := x
    simp only at hevent hpost hsound htraced hstep ⊢
    subst hevent
    -- a round that does not end the recovery leaves it recovering
    cases hstep with
    | recovered =>
      obtain ⟨rfl, -⟩ := Phase.up.inj hpost
      exact hsound.outcome htraced
    | recover | recoverPanics => simp at hpost

/-- A write, a second one cut short after its rename, and a recovery that is itself cut short. -/
def crashedTwice : List Event :=
  [.restart [], .recover, .begin 5 (filled 1, 1, 1)] ++ List.replicate 5 (.advance 5) ++
    [.return 5, .begin 5 (filled 2, 2, 1)] ++ List.replicate 3 (.advance 5) ++
    [.crash, .restart [sectoridxFilePath 5 1 1, sectoridxFilePath 5 2 1], .recover,
      .crash, .restart [sectoridxFilePath 5 2 1, sectoridxFilePath 5 1 1], .recover, .recover, .recover]

/-- The last step has ended a recovery that has found `v` for the sector. -/
def endsWith (idx : SectorIdx) (v : Sector) (tr : List (Entry World Event Unit)) : Bool :=
  tr.getLast?.any fun x =>
    match x.event, x.post.phase with
    | .recover, .up dataAccess _ => decide (found ⟨x.post.dir, dataAccess⟩ idx = some v)
    | _, _ => false

theorem endsWith_iff {idx : SectorIdx} {v : Sector} (h : endsWith idx v tr = true) :
    ∃ before x dataAccess calls, tr = before ++ [x] ∧ x.event = .recover ∧
      x.post.phase = .up dataAccess calls ∧ found ⟨x.post.dir, dataAccess⟩ idx = some v := by
  rcases List.eq_nil_or_concat tr with rfl | ⟨before, x, rfl⟩
  · simp [endsWith] at h
  · simp only [endsWith, List.concat_eq_append, List.getLast?_concat, Option.any_some] at h
    split at h
    · rename_i dataAccess calls hevent hpost
      exact ⟨before, x, dataAccess, calls, by simp, hevent, hpost, of_decide_eq_true h⟩
    · simp at h

section run
set_option maxRecDepth 40000

/-- There the second write is found. -/
theorem crashedTwice_recovered : ∃ before x w dataAccess calls, StorageRun (before ++ [x]) w ∧
    x.event = .recover ∧ x.post.phase = .up dataAccess calls ∧
    found ⟨x.post.dir, dataAccess⟩ 5 = some (filled 2, 2, 1) ∧
    Recovered before x.pre.ledger ⟨x.post.dir, dataAccess⟩ := by
  obtain ⟨tr, w, hr, hobs⟩ := Run.exists_of_exec step (fun _ _ => True) init crashedTwice
    (fun tr _ => endsWith 5 (filled 2, 2, 1) tr) (by decide +kernel)
  obtain ⟨before, x, dataAccess, calls, rfl, hevent, hpost, hfound⟩ := endsWith_iff hobs
  have hrec := (recovery_atomic hr).2 before x [] rfl hevent dataAccess calls hpost
  exact ⟨before, x, w, dataAccess, calls, hr, hevent, hpost, hfound, hrec⟩

end run

end AtomicDisk.Storage
