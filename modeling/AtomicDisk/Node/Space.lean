import AtomicDisk.Node.Durable

/-! How much of the file system a process uses. A sector that has been written has one file, the one that the
    map of the sectors manager names, and while it is being written one more:

        stage        begun   created, filled   renamed      updated      removed
        files        old     old, tmp          old, new     old, new     new
        map          old     old               old          new          new

    So beside one file for each sector in the map there is at most one for each write that is in progress, or
    that a worker has left behind when it panicked; and none is left when there is no such write. Crashes change
    nothing in this, because recovery has removed what they leave before the process is up again. -/

namespace AtomicDisk.Storage
open Schemes

variable {dir : Directory FileName} {da : DataAccess} {calls : SectorIdx → Option Call} {ledger : Ledger}
  {idx : SectorIdx} {t : UInt64 × UInt8} {n : FileName} {c : List UInt8}

/-- The file that a write in progress has beside the one in the map. -/
def spare (idx : SectorIdx) (call : Call) : FileName :=
  match call.stage with
  | .begun | .created | .filled => sectoridxTmpFilePath idx call.sector.2.1 call.sector.2.2
  | .renamed | .removed => sectoridxFilePath idx call.sector.2.1 call.sector.2.2
  | .updated old => sectoridxFilePath idx old.1 old.2

/-- Of the files of a sector, one is in the map, and another one belongs to the write in progress. -/
theorem KeptIn.file {settled : Option Sector} {call : Option Call} (h : KeptIn ⟨dir, da⟩ idx settled call)
    (hfile : fileAt dir idx t = some c) :
    da.lookup idx = some t ∨ ∃ k ∈ call, sectoridxFilePath idx t.1 t.2 = spare idx k := by
  have hentry : da.lookup idx = (mapped settled call).map Prod.snd := h.mapEntry
  obtain ⟨u, hu, rfl, -⟩ := (h.files t c).mp hfile
  -- what is mapped is in the map
  have hmapped : u ∈ mapped settled call → da.lookup idx = some u.2 := by
    intro hu
    rw [hentry, Option.mem_def.mp hu, Option.map_some]
  rcases call with _ | ⟨s, stage⟩
  · exact Or.inl (hmapped (Option.mem_toList.mp hu))
  · cases stage with
    | begun | created | filled => exact Or.inl (hmapped (Option.mem_toList.mp hu))
    | renamed =>
      rcases List.mem_append.mp hu with hu | hu
      · exact Or.inl (hmapped (Option.mem_toList.mp hu))
      · obtain rfl := List.mem_singleton.mp hu
        exact Or.inr ⟨_, rfl, rfl⟩
    | updated old =>
      rcases List.mem_append.mp hu with hu | hu
      · have hold : old = u.2 := by
          rw [h.oldTag _ rfl old rfl, Option.mem_def.mp (Option.mem_toList.mp hu)]
          rfl
        exact Or.inr ⟨_, rfl, by rw [spare, hold]⟩
      · obtain rfl := List.mem_singleton.mp hu
        exact Or.inl (hmapped rfl)
    | removed =>
      obtain rfl := List.mem_singleton.mp hu
      exact Or.inl (hmapped rfl)

theorem KeptIn.tmp {settled : Option Sector} {call : Option Call} (h : KeptIn ⟨dir, da⟩ idx settled call)
    (htmp : tmpAt dir idx t = some c) : ∃ k ∈ call, sectoridxTmpFilePath idx t.1 t.2 = spare idx k := by
  obtain ⟨k, hk, rfl, hstage⟩ := h.tmps t c htmp
  refine ⟨k, hk, ?_⟩
  rcases hstage with hstage | hstage <;> rw [spare, hstage]

/-- What the map names is there, if the sector is not being written. -/
theorem KeptIn.there {settled : Option Sector} (h : KeptIn ⟨dir, da⟩ idx settled none)
    (hda : da.lookup idx = some t) : ∃ c, fileAt dir idx t = some c := by
  have hentry : da.lookup idx = settled.map Prod.snd := h.mapEntry
  obtain ⟨u, hu, rfl⟩ := Option.map_eq_some_iff.mp (hentry.symm.trans hda)
  exact ⟨u.1.data, (h.files _ _).mpr ⟨u, Option.mem_toList.mpr hu, rfl, rfl⟩⟩

/-- The file that the map names for a sector. -/
def currentFile (da : DataAccess) (idx : SectorIdx) : FileName :=
  sectoridxFilePath idx ((da.lookup idx).getD (0, 0)).1 ((da.lookup idx).getD (0, 0)).2

theorem currentFile_inj (da : DataAccess) : Function.Injective (currentFile da) :=
  fun _ _ h => (filePath_inj.mp h).1

/-- All files: those in the map, and one for each write in progress. -/
theorem Sound.places (h : Sound ⟨dir, .up da calls, ledger⟩) (hn : n ∈ dir.dom) :
    (∃ idx ∈ da.dom, currentFile da idx = n) ∨ ∃ idx k, calls idx = some k ∧ spare idx k = n := by
  obtain ⟨c, hc⟩ := HashMap.mem_dom.mp hn
  obtain ⟨idx, ts, wr, rfl | rfl⟩ := h.named n c hc
  · rcases KeptIn.file (h.consistent idx) (t := (ts, wr)) hc with hda | ⟨k, hk, hspare⟩
    · exact Or.inl ⟨idx, HashMap.mem_dom.mpr ⟨_, hda⟩, by rw [currentFile, hda]; rfl⟩
    · exact Or.inr ⟨idx, k, hk, hspare.symm⟩
  · obtain ⟨k, hk, hspare⟩ := KeptIn.tmp (h.consistent idx) (t := (ts, wr)) hc
    exact Or.inr ⟨idx, k, hk, hspare.symm⟩

/-- The number of files is bounded by that of the sectors in the map and of those that are being written. -/
theorem Sound.len_le (h : Sound ⟨dir, .up da calls, ledger⟩) (B : Finset ℕ)
    (hB : ∀ idx, calls idx ≠ none → idx.toNat ∈ B) : dir.len ≤ da.len + B.card := by
  have hsub : dir.dom ⊆ da.dom.image (currentFile da) ∪
      B.image fun s => ((calls (.ofNat s)).map (spare (.ofNat s))).getD [] := by
    intro n hn
    rcases h.places hn with ⟨idx, hidx, rfl⟩ | ⟨idx, k, hk, rfl⟩
    · exact Finset.mem_union_left _ (Finset.mem_image_of_mem _ hidx)
    · refine Finset.mem_union_right _ (Finset.mem_image.mpr ⟨idx.toNat, hB idx (by simp [hk]), ?_⟩)
      simp [hk]
  rw [HashMap.len_eq_card, HashMap.len_eq_card]
  calc dir.dom.card ≤ _ := Finset.card_le_card hsub
    _ ≤ _ := Finset.card_union_le _ _
    _ ≤ da.dom.card + B.card := Nat.add_le_add Finset.card_image_le Finset.card_image_le

/-- At rest the files are those in the map. -/
theorem Sound.dom_eq (h : Sound ⟨dir, .up da calls, ledger⟩) (hrest : ∀ idx, calls idx = none) :
    dir.dom = da.dom.image (currentFile da) := by
  ext n
  rw [Finset.mem_image]
  constructor
  · intro hn
    rcases h.places hn with hmap | ⟨idx, k, hk, -⟩
    · exact hmap
    · simp [hrest idx] at hk
  · rintro ⟨idx, hidx, rfl⟩
    obtain ⟨t, ht⟩ := HashMap.mem_dom.mp hidx
    have hkept : KeptIn ⟨dir, da⟩ idx (ledger.settled idx) none := hrest idx ▸ h.consistent idx
    obtain ⟨c, hc⟩ := hkept.there ht
    exact HashMap.mem_dom.mpr ⟨c, by rw [currentFile, ht]; exact hc⟩

/-- The names in the directory at rest. -/
theorem Sound.mem_keys (h : Sound ⟨dir, .up da calls, ledger⟩) (hrest : ∀ idx, calls idx = none) :
    n ∈ dir.keys ↔ ∃ idx t, da.lookup idx = some t ∧ n = sectoridxFilePath idx t.1 t.2 := by
  have hmem : n ∈ dir.keys ↔ n ∈ dir.dom := by rw [HashMap.dom, List.mem_toFinset]
  rw [hmem, h.dom_eq hrest, Finset.mem_image]
  constructor
  · rintro ⟨idx, hidx, rfl⟩
    obtain ⟨t, ht⟩ := HashMap.mem_dom.mp hidx
    exact ⟨idx, t, ht, by rw [currentFile, ht]; rfl⟩
  · rintro ⟨idx, t, ht, rfl⟩
    exact ⟨idx, HashMap.mem_dom.mpr ⟨t, ht⟩, by rw [currentFile, ht]; rfl⟩

/-- The space that files use. -/
def bytes (dir : Directory FileName) : ℕ := (dir.entries.map fun f => f.2.length).sum

theorem bytes_eq {k : ℕ} (h : ∀ n c, dir.lookup n = some c → c.length = k) : bytes dir = k * dir.len := by
  have hall : ∀ l ∈ dir.entries.map (fun f => f.2.length), l = k := by
    intro l hl
    obtain ⟨f, hf, rfl⟩ := List.mem_map.mp hl
    exact h f.1 f.2 (AList.mem_lookup_iff.mpr hf)
  rw [bytes, List.eq_replicate_of_mem hall, List.sum_replicate_nat, List.length_map, Nat.mul_comm, HashMap.len,
    AList.keys, List.keys, List.length_map]

end AtomicDisk.Storage

namespace AtomicDisk.Node
open Schemes Register
open Process (Config)
open Storage (FileName)

variable {p : Config} {key : List UInt8} {dir : Directory FileName} {l : Live} {tr : NodeTrace}

/-- The sectors that are being written, and those whose worker has panicked. -/
def unsettled (p : Config) (l : Live) : Finset ℕ :=
  l.tasks.dead.toFinset ∪ (Finset.range p.nSectors.toNat).filter fun s => (l.writing s).isSome

/-- Nothing else is being written. -/
theorem StoredIn.unsettled {ledger : Storage.Ledger} {calls : SectorIdx → Option Storage.Call} {idx : SectorIdx}
    (h : StoredIn ⟨dir, .up l⟩ ledger calls) (hkept : Kept p ⟨dir, .up l⟩) (hcall : calls idx ≠ none) :
    idx.toNat ∈ unsettled p l := by
  by_cases hdead : idx.toNat ∈ l.tasks.dead
  · exact Finset.mem_union_left _ (List.mem_toFinset.mpr hdead)
  · rw [h.calls l rfl idx hdead] at hcall
    obtain ⟨call, hwriting⟩ := Option.ne_none_iff_exists'.mp hcall
    obtain ⟨j, todo, htodo, -⟩ := (hkept.full.live l rfl).writes _ call hwriting
    have hlt := hkept.manned.todo l rfl idx.toNat (by simp [htodo])
    exact Finset.mem_union_right _ (Finset.mem_filter.mpr ⟨Finset.mem_range.mpr hlt, by simp [hwriting]⟩)

/-- CORRECT (space): in every state of a process that is up, in every run with crashes anywhere in which stores come
    with larger tags, beside one file for each sector in the map there is at most one for each sector that is
    being written or whose worker has panicked. If there is no such sector, the files are those whose names the
    map gives, one for each sector in it, and each of them has 4096 bytes. -/
theorem space_bounded (hr : GrowingRun p key tr ⟨dir, .up l⟩) :
    dir.len ≤ l.dataAccess.len + (unsettled p l).card ∧
      (unsettled p l = ∅ →
        (∀ n, n ∈ dir.keys ↔
          ∃ idx t, l.dataAccess.lookup idx = some t ∧ n = Storage.sectoridxFilePath idx t.1 t.2) ∧
        (∀ n c, dir.lookup n = some c → c.length = 4096) ∧
        Storage.bytes dir = 4096 * l.dataAccess.len) := by
  have hkept := kept hr
  obtain ⟨ledger, calls, hstored⟩ := hkept.stored
  have hsound : Storage.Sound ⟨dir, .up l.dataAccess calls, ledger⟩ := hstored.sound
  refine ⟨hsound.len_le _ fun idx hcall => hstored.unsettled hkept hcall, fun hempty => ?_⟩
  have hrest : ∀ idx, calls idx = none := by
    intro idx
    by_contra hcall
    simpa [hempty] using hstored.unsettled hkept hcall
  have hfull : ∀ n c, dir.lookup n = some c → c.length = 4096 := by
    intro n c hc
    obtain ⟨idx, t, -, rfl⟩ := (hsound.mem_keys hrest).mp (AList.lookup_isSome.mp (by rw [hc]; rfl))
    exact hkept.full.files idx t c hc
  refine ⟨fun n => hsound.mem_keys hrest, hfull, ?_⟩
  rw [Storage.bytes_eq hfull, HashMap.len_eq_card, hsound.dom_eq hrest,
    Finset.card_image_of_injective _ (Storage.currentFile_inj _), HashMap.len_eq_card]

/-- One sector is in the map, and none is being written. -/
def oneSettled (w : World) : Bool :=
  match w.phase with
  | .up l => decide (l.dataAccess.len = 1 ∧ unsettled Process.oneSector l = ∅)
  | _ => false

section run
set_option maxRecDepth 40000

/-- With the one sector stored, the process uses the space of one sector. -/
theorem storedNotSent_space : ∃ tr dir l, GrowingRun Process.oneSector [] tr ⟨dir, .up l⟩ ∧
    l.dataAccess.len = 1 ∧ Storage.bytes dir = 4096 ∧
    ∀ n ∈ dir.keys, ∃ idx t, l.dataAccess.lookup idx = some t ∧ n = Storage.sectoridxFilePath idx t.1 t.2 := by
  obtain ⟨tr, ⟨dir, phase⟩, hr, hobs⟩ := Run.exists_of_exec (step Process.oneSector [])
    (MetBy (TagGrows ⟨1, 0, true⟩)) init storedNotSent (fun _ => oneSettled) (by decide +kernel)
  cases phase with
  | up l =>
    obtain ⟨hlen, hrest⟩ := of_decide_eq_true hobs
    obtain ⟨hnames, -, hbytes⟩ := (space_bounded hr).2 hrest
    exact ⟨tr, dir, l, hr, hlen, by rw [hbytes, hlen], fun n hn => (hnames n).mp hn⟩
  | _ => cases hobs

end run

end AtomicDisk.Node
