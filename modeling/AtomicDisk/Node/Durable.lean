import AtomicDisk.Node.Slots
import AtomicDisk.Node.Stores

/-! What a crash leaves of a register. A worker stores its copy of the sector before it does anything else with
    it, and the copy counts from one file system call on, the rename; until then the worker lags behind its
    own register:

        handler ──▶ [write, send, …] ──rename──▶ … ──written──▶ [send, …] ──▶ …
                    lags                │   directory and register agree

    So whenever a process sends a message or runs a callback, a crash at that moment and a recovery would give
    back the very copy that the message or the callback is about. -/

namespace AtomicDisk.Node
open Schemes Register Transfer
open Process (Config Tasks TaskEvent Ticket Worker taskStep)
open Storage (FileName Sector DataAccess Call Ledger SectorsManagerState fileAt recoverEntry found Newest inEffect)

/-- The sector as a register is built from it. -/
def contents (d : Option Sector) : Sector := d.getD (.zeros, 0, 0)

/-- The copy of the sector in a register. -/
def copyOf {κ : Type} (r : AtomicRegisterState κ) : Sector := (r.val, r.ts, r.wr)

/-- The step of a worker at which its write begins to count. -/
structure Renames (w : World) (e : Event) (w' : World) (idx : SectorIdx) (k : Worker) (sector : Sector)
    (todo : List (Effect Ticket)) : Prop where
  event : e = .write idx.toNat
  before : w.slot idx.toNat = some ⟨k, .write idx sector :: todo, some ⟨sector, .filled⟩⟩
  after : w'.slot idx.toNat = some ⟨k, .write idx sector :: todo, some ⟨sector, .renamed⟩⟩
  newest : Newest (fileAt w'.dir idx) (some sector)

variable {p : Config} {key : List UInt8} {dir : Directory FileName} {l l' : Live} {w w' : World}
  {e : Event} {s : ℕ} {k : Worker} {ledger : Ledger} {calls : SectorIdx → Option Call} {params : Params}
  {idx : SectorIdx} {d : Option Sector} {x : Slot}

theorem StoredIn.newest (h : StoredIn ⟨dir, .up l⟩ ledger calls) (idx : SectorIdx) :
    Newest (fileAt dir idx) (inEffect (ledger.settled idx) (calls idx)) :=
  Storage.Kept.newest (h.sound.consistent idx)

/-- What a step of `write` for sector `j` does to the latest file of a sector. -/
theorem StoredIn.newest_advance {j : SectorIdx} {call call' : Call} {m : SectorsManagerState}
    (h : StoredIn ⟨dir, .up l⟩ ledger calls) (hdead : j.toNat ∉ l.tasks.dead)
    (hcall : l.writing j.toNat = some call) (hadv : call.advance j ⟨dir, l.dataAccess⟩ = some (m, call'))
    (hd : Newest (fileAt dir idx) d) :
    Newest (fileAt m.dir idx) (if idx = j ∧ call.stage = .filled then some call.sector else d) := by
  have hnewest := (h.advance hdead hcall hadv).newest idx
  obtain rfl : d = _ := hd.unique (h.newest idx)
  rcases eq_or_ne idx j with rfl | hne
  · rw [Function.update_self, Storage.inEffect_advance hadv, ← hcall, ← h.calls l rfl idx hdead] at hnewest
    simpa using hnewest
  · rw [Function.update_of_ne hne] at hnewest
    simpa [hne] using hnewest

/-- A step of the process does one of the things listed to the slot of a sector, and leaves the latest file of
    the sector in place; or it is the rename of that sector's file. -/
theorem slot_step (h : StoredIn w ledger calls) (hfull : WorldFull w) (hmanned : Manned p w)
    (hs : Stepped p key w e w') (hd : Newest (fileAt w.dir idx) d) :
    Turn p key w idx.toNat e (w.slot idx.toNat) (w'.slot idx.toNat) ∧ Newest (fileAt w'.dir idx) d ∨
      ∃ k sector todo, Renames w e w' idx k sector todo := by
  cases hs with
  | task hunfed hnone htask =>
    refine Or.inl ⟨turn_task htask (by simp [hnone]) (by rintro _ _ ⟨⟩; cases hnone) ?_ rfl rfl rfl, hd⟩
    rintro pe item rfl hbrings
    cases hbrings with
    | client hc => exact .client rfl hc
    | system | self => cases hunfed
  | @work dir l te i tasks effs hbegins hempty htask =>
    refine Or.inl ⟨?_, hd⟩
    rcases eq_or_ne i idx.toNat with rfl | hne
    · exact turn_work (hfull.live l rfl) hbegins hempty htask
    · refine turn_task htask (by simpa [hbegins] using hne) (fun uuid order heq => ?_) ?_ rfl
        (Function.update_of_ne hne.symm ..) rfl
      · obtain rfl := Event.task.inj heq
        exact hne (Option.some.inj hbegins).symm
      · rintro pe item rfl hbrings
        cases hbrings <;> cases hbegins
  | read hread htask =>
    refine Or.inl ⟨turn_task htask (by simp [begins]) (by simp [Quiet]) ?_ rfl rfl rfl, hd⟩
    rintro pe item ⟨⟩ hbrings
    cases hbrings with
    | system => exact .system hread
  | hangUp hread htask =>
    refine Or.inl ⟨turn_task htask (by simp [begins]) (by simp [Quiet]) ?_ rfl rfl rfl, hd⟩
    rintro pe item ⟨⟩ hbrings
    cases hbrings
  | selfMessage hqueue htask =>
    refine Or.inl ⟨turn_task htask (by simp [begins]) (by simp [Quiet]) ?_ rfl rfl rfl, hd⟩
    rintro pe item ⟨⟩ hbrings
    cases hbrings with
    | self => exact .self rfl hqueue
  | @begins dir l i j sector todo hdead htodo hnone =>
    obtain ⟨hidx, -⟩ : j.toNat = i ∧ Full sector.1 := (hfull.live l rfl).head htodo
    refine Or.inl ⟨turn_worker (i := i) (by simp [Quiet]) rfl (fun _ => rfl) (fun hne => Function.update_of_ne hne ..)
      fun k hsi => ?_, hd⟩
    subst hsi
    simp only [htodo, hnone, Function.update_self]
    exact .begins hidx
  | @written dir l i j sector todo call hdead htodo hcall hstage =>
    obtain ⟨hidx, -⟩ : j.toNat = i ∧ Full sector.1 := (hfull.live l rfl).head htodo
    obtain ⟨j', todo', htodo', -⟩ := (hfull.live l rfl).writes i call hcall
    obtain ⟨⟨rfl, rfl⟩, rfl⟩ : (j = j' ∧ sector = call.sector) ∧ todo = todo' := by
      simpa using htodo.symm.trans htodo'
    refine Or.inl ⟨turn_worker (i := i) (by simp [Quiet]) rfl (fun hne => Function.update_of_ne hne ..)
      (fun hne => Function.update_of_ne hne ..) fun k hsi => ?_, hd⟩
    subst hsi
    simp only [htodo, hcall, Function.update_self]
    exact .written hidx rfl hstage
  | calls => exact Or.inl ⟨turn_tasks rfl fun k _ _ => .same (by simp [Quiet]), hd⟩
  | @returns dir l i j eff todo ev hdead htodo hcall hsome hdone =>
    have hne : ∀ idx sector, eff ≠ .write idx sector := by
      rintro idx sector rfl
      cases hcall
    refine Or.inl ⟨turn_worker (i := i) (by simp [Quiet]) rfl (fun hne => Function.update_of_ne hne ..) (fun _ => rfl)
      fun k hsi => ?_, hd⟩
    subst hsi
    have hnone : l.writing idx.toNat = none := (hfull.live l rfl).not_writing fun idx sector hhead => by
      rw [htodo] at hhead
      exact hne idx sector (Option.some.inj hhead)
    simp only [htodo, hnone, Function.update_self]
    exact .done hne
  | @callback dir l i t op todo hdead htodo =>
    refine Or.inl ⟨turn_worker (i := i) (by simp [Quiet]) rfl (fun hne => Function.update_of_ne hne ..) (fun _ => rfl)
      fun k hsi => ?_, hd⟩
    subst hsi
    have hnone : l.writing idx.toNat = none := (hfull.live l rfl).not_writing (by simp [htodo])
    simp only [htodo, hnone, Function.update_self]
    exact .done (by simp)
  | push => exact Or.inl ⟨turn_tasks rfl fun k _ _ => .same (by simp [Quiet]), hd⟩
  | client => exact Or.inl ⟨turn_tasks rfl fun k _ _ => .same (by simp [Quiet]), hd⟩
  | @advance dir l i j sector todo call call' m hdead htodo hcall hadv =>
    obtain ⟨rfl, -⟩ : j.toNat = i ∧ Full sector.1 := (hfull.live l rfl).head htodo
    obtain ⟨j', todo', htodo', -⟩ := (hfull.live l rfl).writes j.toNat call hcall
    obtain ⟨⟨rfl, rfl⟩, rfl⟩ : (j = j' ∧ sector = call.sector) ∧ todo = todo' := by
      simpa using htodo.symm.trans htodo'
    have hnewest := h.newest_advance hdead hcall hadv hd
    by_cases hren : idx = j ∧ call.stage = .filled
    · obtain ⟨rfl, hstage⟩ := hren
      obtain ⟨sector, stage⟩ := call
      obtain rfl : stage = .filled := hstage
      obtain ⟨dir', -, heq⟩ := Option.map_eq_some_iff.mp hadv
      obtain ⟨rfl, rfl⟩ := Prod.mk.inj heq
      obtain ⟨k, hk⟩ := hmanned.worker (s := idx.toNat) (by simp [htodo])
      exact Or.inr ⟨k, sector, todo, rfl, slot_eq_some.mpr ⟨hdead, hk, htodo.symm, hcall.symm⟩,
        slot_eq_some.mpr ⟨hdead, hk, htodo.symm, by simp⟩, by simpa using hnewest⟩
    · rw [if_neg hren] at hnewest
      refine Or.inl ⟨turn_worker (i := j.toNat) (by simp [Quiet]) rfl (fun _ => rfl)
        (fun hne => Function.update_of_ne hne ..) fun k hsi => ?_, hnewest⟩
      have hne : call.stage ≠ .filled := fun hstage => hren ⟨UInt64.toNat_inj.mp hsi, hstage⟩
      obtain ⟨hsector, hlags⟩ := lags_advance hadv hne
      rw [hsi]
      simp only [htodo, hcall, Function.update_self]
      exact .advance rfl rfl hsector hlags
  | fillPartly =>
    refine Or.inl ⟨turn_same (by simp [Quiet]) _, ?_⟩
    simp only [Storage.fileAt_fill_tmp]
    exact hd
  | panics he =>
    refine Or.inl ⟨turn_panics fun uuid order heq => ?_, hd⟩
    rcases he with rfl | rfl | rfl <;> cases heq
  | @crash dir phase hphase =>
    refine Or.inl ⟨?_, hd⟩
    cases phase with
    | up l =>
      cases hl : l.slot idx.toNat with
      | none =>
        rw [slot_up, hl]
        exact .empty
      | some x =>
        rw [slot_up, hl]
        exact .dies
    | recovering => exact .empty
    | down => exact .empty
  | restart => exact Or.inl ⟨.empty, hd⟩
  | recover hentry => exact Or.inl ⟨.empty, hd.recover h.sound.consistent.1 h.sound.named hentry⟩
  | recoverPanics => exact Or.inl ⟨.empty, hd⟩
  | @recovered dir da =>
    refine Or.inl ⟨?_, hd⟩
    simp only [slot_up, slot_boot]
    split
    · rename_i hstart
      exact .starts rfl hstart.1 hstart.2
    · exact .empty

/-! ### The directory and the registers -/

/-- The directory holds the copies of all workers that do not lag. -/
def Durable (w : World) : Prop :=
  ∀ idx, ∃ d, Newest (fileAt w.dir idx) d ∧
    ∀ x, w.slot idx.toNat = some x → x.lags = false → copyOf x.worker.register = contents d

/-- The register of a worker that starts holds what is in the directory. -/
theorem copyOf_bootWorker {da : DataAccess} (h : Storage.Sound ⟨dir, .recovering da [], ledger⟩)
    (hfiles : FilesFull dir) (hd : Newest (fileAt dir idx) d) :
    copyOf (bootWorker p ⟨dir, da⟩ idx.toNat).register = contents d := by
  obtain ⟨v, hv, hcontents⟩ := hd.reads h.consistent.1 (hfiles idx)
  rw [contents, ← hcontents]
  simp only [bootWorker, copyOf, buildAtomicRegister, AtomicRegisterState.new, UInt64.ofNat_toNat, hv,
    Option.getD_some]

/-- A worker starts with a register that is built from its copy. -/
theorem bootWorker_register (p : Config) (m : SectorsManagerState) (idx : SectorIdx) :
    (bootWorker p m idx.toNat).register = buildAtomicRegister p.selfIdent idx p.processesCount
      (copyOf (bootWorker p m idx.toNat).register) := by
  simp only [bootWorker, UInt64.ofNat_toNat]
  rfl

theorem StoredIn.stores (h : StoredIn w ledger calls) (hx : w.slot idx.toNat = some x) :
    ∃ l, w.phase = .up l ∧ WorkerStores l (ledger.begun idx) idx.toNat x.worker ∧
      x.todo = l.todo idx.toNat ∧ x.writing = l.writing idx.toNat := by
  obtain ⟨dir, phase⟩ := w
  cases phase with
  | up l =>
    obtain ⟨hdead, hk, htodo, hwriting⟩ := slot_eq_some.mp hx
    exact ⟨l, rfl, h.workers l rfl idx x.worker hdead hk, htodo, hwriting⟩
  | recovering => cases hx
  | down => cases hx

/-- The condition on the quorums that a worker completes, at the handler it runs. -/
theorem MetBy.meets {C : EntryCondition} {uuid : Uuid} {order : IterOrder UInt8 ReadEntry}
    {cmd : SystemRegisterCommand} {callback : Option Ticket} {queue : List (RegisterCommand × Option Ticket)}
    {r : AtomicRegisterState Ticket} {running : Option Process.Running} {todo : List (Effect Ticket)}
    {writing : Option Call} (h : MetBy C w (.task (.run (.work s uuid order))))
    (hx : w.slot s = some ⟨⟨(.system cmd, callback) :: queue, r, running⟩, todo, writing⟩) :
    Meets C r.named cmd := by
  obtain ⟨dir, phase⟩ := w
  cases phase with
  | up l =>
    obtain ⟨-, hk, -⟩ := slot_eq_some.mp hx
    exact h (r, cmd) (by simp [handling, hk])
  | recovering => cases hx
  | down => cases hx

theorem durable_step (h : Durable w) (hstored : StoredIn w ledger calls) (hfull : WorldFull w)
    (hmanned : Manned p w) (hmet : MetBy (TagGrows params) w e)
    (hoc : params.overflowChecks = p.overflowChecks) (hs : Stepped p key w e w') : Durable w' := by
  intro idx
  obtain ⟨d, hd, hcopy⟩ := h idx
  rcases slot_step hstored hfull hmanned hs hd with ⟨hturn, hd'⟩ | ⟨k, sector, todo, hren⟩
  · refine ⟨d, hd', fun x hx hlags => ?_⟩
    rw [hx] at hturn
    generalize hx₀ : w.slot idx.toNat = x₀ at hturn
    cases hturn with
    | same => exact hcopy x hx₀ hlags
    | running | arrives =>
      have hold := hcopy _ hx₀ hlags
      exact hold
    | @client uuid order cmd t queue r =>
      obtain ⟨hts, hwr, hval⟩ := clientCommand_copy r cmd t uuid
      have hold := hcopy _ hx₀ rfl
      simp only [copyOf, hts, hwr, hval]
      exact hold
    | @system uuid order cmd callback queue r r' effs hsys =>
      have hold := hcopy _ hx₀ rfl
      rw [← hoc] at hsys
      rcases (systemCommand_handled hsys).copies (hmet.meets hx₀) with
        ⟨rest, rfl, -, -⟩ | ⟨⟨hval, hts, hwr⟩, -⟩
      · cases hlags
      · simp only [copyOf, hts, hwr, hval]
        exact hold
    | @done k eff todo hne =>
      refine hcopy ⟨k, eff :: todo, none⟩ hx₀ ?_
      cases eff with
      | write idx sector => exact absurd rfl (hne idx sector)
      | _ => rfl
    | begins => cases hlags
    | advance hidx hsector hsector' heq =>
      have hold := hcopy _ hx₀ (heq.symm.trans hlags)
      exact hold
    | @written k idx sector todo call hidx hsector hstage =>
      obtain ⟨u, stage⟩ := call
      obtain rfl : stage = .removed := hstage
      have hold := hcopy _ hx₀ rfl
      exact hold
    | starts hphase =>
      obtain ⟨dir, phase⟩ := w
      obtain rfl : phase = _ := hphase
      exact copyOf_bootWorker hstored.sound hfull.files hd
  · refine ⟨some sector, hren.newest, fun x hx _ => ?_⟩
    obtain rfl := Option.some.inj (hren.after.symm.trans hx)
    obtain ⟨l, -, hstores, htodo, -⟩ := hstored.stores hren.before
    exact (hstores.head idx sector todo htodo.symm).1.symm

/-! ### Runs -/

/-- Runs of a process in which every store comes with a larger tag. -/
abbrev GrowingRun (p : Config) (key : List UInt8) (tr : NodeTrace) (w : World) : Prop :=
  Run (step p key) (MetBy (TagGrows ⟨p.processesCount, 0, p.overflowChecks⟩)) init tr w

/-- What holds of a process in such runs. -/
structure Kept (p : Config) (w : World) : Prop where
  full : WorldFull w
  manned : Manned p w
  stored : ∃ ledger calls, StoredIn w ledger calls
  durable : Durable w

theorem kept_init (p : Config) : Kept p init := by
  refine ⟨⟨fun idx t bytes hfile => ?_, by simp [init]⟩, ⟨by simp [init], by simp [init]⟩,
    ⟨_, fun _ => none, Storage.sound_init, by simp [init], by simp [init]⟩,
    fun idx => ⟨none, Storage.newest_none, fun x hx => ?_⟩⟩
  · simp [init, fileAt] at hfile
  · cases hx

theorem kept_step {o : Unit} (h : Kept p w) (hmet : MetBy (TagGrows params) w e)
    (hoc : params.overflowChecks = p.overflowChecks) (hs : step p key w e = some (w', o)) : Kept p w' := by
  obtain ⟨ledger, calls, hstored⟩ := h.stored
  have hstepped := step_stepped hs
  exact ⟨worldFull_step h.full hstepped, manned_step h.manned hstepped,
    storedIn_step hstored h.full h.manned hmet hoc hstepped,
    durable_step h.durable hstored h.full h.manned hmet hoc hstepped⟩

theorem kept {tr : NodeTrace} (hr : GrowingRun p key tr w) : Kept p w :=
  hr.invariant (I := fun _ w => Kept p w) (kept_init p) fun _ _ _ h hmet hs => kept_step h hmet rfl hs

/-- Whatever the process is doing, its directory can be recovered from, with the latest file of each sector. -/
theorem StoredIn.recovers {listing : List FileName} (h : StoredIn w ledger calls)
    (hperm : listing.Perm w.dir.keys) : ∃ m ledger', SectorsManagerState.new w.dir listing = some m ∧
      Storage.Sound ⟨m.dir, .recovering m.dataAccess [], ledger'⟩ ∧
      (∀ idx t c, fileAt m.dir idx t = some c → fileAt w.dir idx t = some c) ∧
      ∀ idx d, Newest (fileAt w.dir idx) d → Newest (fileAt m.dir idx) d := by
  obtain ⟨dir, phase⟩ := w
  obtain ⟨ledger', calls', hdown⟩ := h.crash
  obtain ⟨dir', da', hfold, hsound, hfiles, hnewest⟩ := (Storage.Sound.restart hdown.sound hperm).recovers
  exact ⟨⟨dir', da'⟩, ledger', by rw [SectorsManagerState.new, Storage.sectorsCrashRecovery, hfold]; rfl,
    hsound, hfiles, hnewest⟩

/-! ### Crashes and restarts -/

/-- A crash, a start or a step of recovery. -/
def Event.restarts : Event → Bool
  | .crash | .restart _ | .recover => true
  | _ => false

/-- Runs from `w` of a process that crashes and is started again, any number of times and also in the middle of
    a recovery, and does nothing else. -/
abbrev RestartRun (p : Config) (key : List UInt8) (w : World) (tr : NodeTrace) (w' : World) : Prop :=
  Run (step p key) (fun _ e => e.restarts = true) w tr w'

/-- What restarts leave: the newest file of each sector is the same, and no worker has begun to lag. -/
structure Outlasts (w w' : World) : Prop where
  newest : ∀ idx d, Newest (fileAt w.dir idx) d → Newest (fileAt w'.dir idx) d
  agrees : ∀ idx : SectorIdx, (∀ x, w.slot idx.toNat = some x → x.lags = false) →
    ∀ y, w'.slot idx.toNat = some y → y.lags = false

theorem outlasts_refl (w : World) : Outlasts w w := ⟨fun _ _ h => h, fun _ h => h⟩

theorem Outlasts.trans {w₁ w₂ w₃ : World} (h : Outlasts w₁ w₂) (h' : Outlasts w₂ w₃) : Outlasts w₁ w₃ :=
  ⟨fun idx d hd => h'.newest idx d (h.newest idx d hd), fun idx hx => h'.agrees idx (h.agrees idx hx)⟩

theorem metBy_restarts {C : EntryCondition} (he : e.restarts = true) : MetBy C w e := by
  cases e with
  | crash | restart | recover => simp [MetBy, handling]
  | _ => cases he

theorem outlasts_step (h : Kept p w) (he : e.restarts = true) (hs : Stepped p key w e w') : Outlasts w w' := by
  obtain ⟨ledger, calls, hstored⟩ := h.stored
  -- a restart is no rename
  have hturn : ∀ idx d, Newest (fileAt w.dir idx) d →
      Turn p key w idx.toNat e (w.slot idx.toNat) (w'.slot idx.toNat) ∧ Newest (fileAt w'.dir idx) d := by
    intro idx d hd
    refine (slot_step hstored h.full h.manned hs hd).resolve_right ?_
    rintro ⟨k, sector, todo, hren⟩
    rw [hren.event] at he
    cases he
  refine ⟨fun idx d hd => (hturn idx d hd).2, fun idx hagrees y hy => ?_⟩
  obtain ⟨d, hd, -⟩ := h.durable idx
  have hcase := (hturn idx d hd).1
  rw [hy] at hcase
  generalize hx : w.slot idx.toNat = x at hcase
  cases hcase with
  | same => exact hagrees y hx
  | running | arrives =>
    have hold := hagrees _ hx
    exact hold
  | starts => rfl
  | _ => cases he

theorem outlasts {tr : NodeTrace} (h : Kept p w) (hr : RestartRun p key w tr w') : Kept p w' ∧ Outlasts w w' := by
  refine hr.invariant (I := fun _ w' => Kept p w' ∧ Outlasts w w') ⟨h, outlasts_refl w⟩ ?_
  rintro tr x - ⟨hkept, hout⟩ he hs
  have hmet : MetBy (TagGrows ⟨p.processesCount, 0, p.overflowChecks⟩) x.pre x.event := metBy_restarts he
  exact ⟨kept_step hkept hmet rfl hs, hout.trans (outlasts_step hkept he (step_stepped hs))⟩

/-- The register of a sector is built from its newest file. -/
theorem copyOf_boot {m : SectorsManagerState} (hsound : Storage.Sound ⟨m.dir, .recovering m.dataAccess [], ledger⟩)
    (hfull : FilesFull m.dir) (hd : Newest (fileAt m.dir idx) d) (hx : (boot p m).slot idx.toNat = some x) :
    copyOf x.worker.register = contents d := by
  rw [slot_boot] at hx
  split at hx
  · obtain rfl := Option.some.inj hx
    exact copyOf_bootWorker hsound hfull hd
  · cases hx

/-- CORRECT (crash atomicity of a process): let a process that has come to `w`, in a run in which stores come with
    larger tags, crash and be started again any number of times, also while it recovers. Then the directory can
    be recovered from, in whatever order it is listed, and all workers start; and every register that the
    process comes up with has the value, timestamp and rank that it had in `w`, if it was not about to be
    stored then. -/
theorem crash_keeps_registers {tr tr' : NodeTrace} (hr : GrowingRun p key tr w) (hre : RestartRun p key w tr' w') :
    (∀ (idx : SectorIdx) x y, w.slot idx.toNat = some x → x.lags = false → w'.slot idx.toNat = some y →
      copyOf y.worker.register = copyOf x.worker.register) ∧
    ∀ listing : List FileName, listing.Perm w'.dir.keys → ∃ m, SectorsManagerState.new w'.dir listing = some m ∧
      (∀ s, s < p.nSectors.toNat → ∃ y, (boot p m).slot s = some y) ∧
      ∀ (idx : SectorIdx) x y, w.slot idx.toNat = some x → x.lags = false →
        (boot p m).slot idx.toNat = some y → copyOf y.worker.register = copyOf x.worker.register := by
  have hkept := kept hr
  obtain ⟨hkept', hout⟩ := outlasts hkept hre
  refine ⟨fun idx x y hx hlags hy => ?_, fun listing hperm => ?_⟩
  · obtain ⟨d, hd, hcopy⟩ := hkept.durable idx
    obtain ⟨d', hd', hcopy'⟩ := hkept'.durable idx
    obtain rfl := hd'.unique (hout.newest idx d hd)
    have hlags' : y.lags = false := hout.agrees idx (fun x' hx' => Option.some.inj (hx.symm.trans hx') ▸ hlags) y hy
    rw [hcopy x hx hlags, hcopy' y hy hlags']
  · obtain ⟨ledger, calls, hstored⟩ := hkept'.stored
    obtain ⟨m, ledger', hnew, hsound, hfiles, hnewest⟩ := hstored.recovers hperm
    have hfull : FilesFull m.dir := fun idx t c hc => hkept'.full.files idx t c (hfiles idx t c hc)
    refine ⟨m, hnew, fun s hs => ?_, fun idx x y hx hlags hy => ?_⟩
    · obtain ⟨d, hd, -⟩ := hkept'.durable (.ofNat s)
      obtain ⟨v, hv, -⟩ := (hnewest _ _ hd).reads hsound.consistent.1 (hfull _)
      exact ⟨_, by rw [slot_boot, if_pos ⟨hs, by rw [hv]; rfl⟩]⟩
    · obtain ⟨d, hd, hcopy⟩ := hkept.durable idx
      rw [hcopy x hx hlags]
      exact copyOf_boot hsound hfull (hnewest idx d (hout.newest idx d hd)) hy

/-- A sector arrives in a WRITE_PROC and is stored; the ACK is still to be sent. -/
def storedNotSent : List Event :=
  [.restart [], .recover, .task (.run .accept),
    .read 0 (serializeRc sumHmac (.system ⟨⟨1, uuid 1, 0⟩, .writeProc 1 1 (filled 7)⟩) []),
    .task (.run (.work 0 (uuid 1) .asIs)), .perform 0, .write 0, .write 0, .write 0, .write 0, .write 0,
    .perform 0]

/-- The process crashes, is started, crashes again while it recovers, and is started again. -/
def crashesTwice : List Event :=
  [.crash, .restart [Storage.sectoridxFilePath 0 1 1], .crash, .restart [Storage.sectoridxFilePath 0 1 1],
    .recover, .recover]

/-- The worker of sector 0 has `sector` in its register, and is not about to store it. -/
def holds (sector : Sector) (w : World) : Bool :=
  (w.slot 0).any fun x => decide (copyOf x.worker.register = sector) && !x.lags

/-- The process gets through both crashes, and has a worker for sector 0 again. -/
def comesBack (w : World) : Bool :=
  (exec (step Process.oneSector []) w crashesTwice).any fun r =>
    (r.1.all fun x => x.event.restarts) && (r.2.slot 0).isSome

section run
-- sectors of 4096 bytes are compared byte by byte when a concrete run is replayed
set_option maxRecDepth 40000

/-- The sector that has been stored is in the register that the second recovery comes up with. -/
theorem storedNotSent_kept : ∃ tr w tr' w' x y, GrowingRun Process.oneSector [] tr w ∧
    RestartRun Process.oneSector [] w tr' w' ∧ w.slot 0 = some x ∧ w'.slot 0 = some y ∧
    copyOf x.worker.register = (filled 7, 1, 1) ∧
    copyOf y.worker.register = copyOf x.worker.register := by
  obtain ⟨tr, w, hr, hobs⟩ := Run.exists_of_exec (step Process.oneSector [])
    (MetBy (TagGrows ⟨1, 0, true⟩)) init storedNotSent (fun _ w => holds (filled 7, 1, 1) w && comesBack w)
    (by decide +kernel)
  obtain ⟨hholds, hagain⟩ := Bool.and_eq_true_iff.mp hobs
  obtain ⟨x, hx, hsector⟩ := (Option.any_eq_true _ _).mp hholds
  simp only [Bool.and_eq_true, decide_eq_true_eq, Bool.not_eq_true'] at hsector
  obtain ⟨⟨tr', w'⟩, hexec, hre⟩ := (Option.any_eq_true _ _).mp hagain
  simp only [Bool.and_eq_true, List.all_eq_true, Option.isSome_iff_exists] at hre
  obtain ⟨hre, y, hy⟩ := hre
  have hrun := Run.of_exec (P := fun _ e => e.restarts = true) hexec hre
  exact ⟨tr, w, tr', w', x, y, hr, hrun, hx, hy, hsector.1,
    (crash_keeps_registers hr hrun).1 0 x y hx hsector.2 hy⟩

end run

end AtomicDisk.Node
