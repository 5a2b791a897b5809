import AtomicDisk.Node.SectorLength
import AtomicDisk.Node.Steps
import AtomicDisk.Process.Workers
import AtomicDisk.Register.Naming
import AtomicDisk.Register.Tags
import AtomicDisk.Storage.Newest

/-! What the workers of a process do to its directory. Each worker stores in its own sector, one call of
    `write` at a time, and waits for it; so as long as every store comes with a larger tag than the one before
    it (`TagGrows`), the calls of all workers together are those that the sectors manager is made for, over
    all crashes of the process:

        handler ──▶ write s ──begins──▶ call in progress ──advance──▶ … ──written──▶ next effect
                    tag s > tag of every write begun

    The ledger that goes with the manager starts anew with every recovery: a write that was interrupted
    and is not found may be begun again under the same tag. -/

namespace AtomicDisk.Register
open Schemes

variable {κ : Type} {r r' : AtomicRegisterState κ} {h : SystemCommandHeader}
  {c : SystemRegisterCommandContent} {effs : List (Effect κ)}

/-- A handler stores its copy of the sector first, under a larger tag, or it keeps its copy and stores
    nothing. -/
theorem Handled.copies {p : Params} (hh : Handled p.overflowChecks r h c r' effs)
    (hm : Meets (TagGrows p) r.named ⟨h, c⟩) :
    (∃ rest, effs = .write r.sectorIdx (r'.val, r'.ts, r'.wr) :: rest ∧
      tag r.ts r.wr < tag r'.ts r'.wr ∧ ∀ idx s, .write idx s ∉ rest) ∨
    (r'.val = r.val ∧ r'.ts = r.ts ∧ r'.wr = r.wr) ∧ ∀ idx s, .write idx s ∉ effs := by
  cases hh with
  | @valueWrite t w d e ts hop hphase hquorum hread hwrite hhigh hadd =>
    obtain ⟨⟨k, hk⟩, hmax⟩ := hhigh
    have hcompletes : Completes r.named h (t, w, d) :=
      ⟨hop, hphase, hquorum, by simpa [AtomicRegisterState.named, AtomicRegisterState.mapCallback,
        hread] using hwrite⟩
    obtain ⟨hinc, hlt⟩ := hm (t, w, d) rfl hcompletes ⟨k, e⟩ (AList.mem_lookup_iff.mp hk)
      (fun e' he' => hmax e'.1 e'.2 (AList.mem_lookup_iff.mpr he')) hread
    refine Or.inl ⟨_, rfl, ?_, by simp⟩
    rw [tag_lt_toNat, hinc.add hadd]
    exact hlt
  | writeProcAdopt hlt => exact Or.inl ⟨_, rfl, hlt, by simp⟩
  | _ => exact Or.inr ⟨⟨rfl, rfl, rfl⟩, by simp⟩

end AtomicDisk.Register

namespace AtomicDisk.Node
open Schemes Register Transfer
open Process (Config Tasks TaskEvent Ticket Worker taskStep Served taskStep_served)
open Storage (FileName Sector DataAccess Call Ledger SectorsManagerState fileAt recoverEntry found)

/-- The register and the command of the handler of system commands that a step runs. -/
def handling (w : World) : Event → Option (AtomicRegisterState Ticket × SystemRegisterCommand)
  | .task (.run (.work s _ _)) =>
    match w.phase with
    | .up l => l.tasks.world.workers[s]?.bind fun k =>
      match k.queue with
      | (.system cmd, _) :: _ => some (k.register, cmd)
      | _ => none
    | _ => none
  | _ => none

/-- In the handler that a step runs, `C` holds at the quorum that it completes. -/
def MetBy (C : EntryCondition) (w : World) (e : Event) : Prop :=
  ∀ y ∈ handling w e, Meets C y.1.named y.2

instance (C : EntryCondition) [∀ r m e, Decidable (C r m e)] (w : World) (e : Event) :
    Decidable (MetBy C w e) := by
  dsimp only [MetBy]; infer_instance

/-! ### The sectors manager of a process -/

/-- The phase of the sectors manager, with the calls that are in progress. -/
def storagePhase (calls : SectorIdx → Option Call) : Phase → Storage.Phase
  | .up l => .up l.dataAccess calls
  | .recovering da remaining => .recovering da remaining
  | .down => .down

/-- What worker `s` has stored and is to store: `begun` is the last write begun for its sector. -/
structure WorkerStores (l : Live) (begun : Option Sector) (s : ℕ) (k : Worker) : Prop where
  bound : ∀ u ∈ begun, sectorTag u ≤ tag k.register.ts k.register.wr
  /-- the copy in the register is what is being stored -/
  head : ∀ idx sector todo, l.todo s = .write idx sector :: todo →
    sector = (k.register.val, k.register.ts, k.register.wr) ∧ sector.2 ≠ (0, 0)
  larger : ∀ idx sector todo, l.todo s = .write idx sector :: todo → l.writing s = none →
    ∀ u ∈ begun, sectorTag u < sectorTag sector
  /-- a handler stores first -/
  first : ∀ idx sector, .write idx sector ∉ (l.todo s).tail

/-- The directory of a process is as the sectors manager keeps it, with the calls of its workers in
    progress; a call of a worker that has panicked stays where it was. -/
structure StoredIn (w : World) (ledger : Ledger) (calls : SectorIdx → Option Call) : Prop where
  sound : Storage.Sound ⟨w.dir, storagePhase calls w.phase, ledger⟩
  calls : ∀ l, w.phase = .up l → ∀ idx, idx.toNat ∉ l.tasks.dead → calls idx = l.writing idx.toNat
  workers : ∀ l, w.phase = .up l → ∀ idx k, idx.toNat ∉ l.tasks.dead →
    l.tasks.world.workers[idx.toNat]? = some k → WorkerStores l (ledger.begun idx) idx.toNat k

variable {p : Config} {key : List UInt8} {dir : Directory FileName} {l l' : Live} {w w' : World}
  {e : Event} {s : ℕ} {k k' : Worker} {begun : Option Sector} {ledger : Ledger}
  {calls : SectorIdx → Option Call} {params : Params}

/-- What is stored depends on the copy in the register only. -/
theorem WorkerStores.same (h : WorkerStores l begun s k) (hregister : k'.register = k.register)
    (htodo : l'.todo s = l.todo s) (hwriting : l'.writing s = l.writing s) : WorkerStores l' begun s k' := by
  refine ⟨?_, ?_, ?_, ?_⟩
  · rw [hregister]
    exact h.bound
  · rw [hregister, htodo]
    exact h.head
  · rw [htodo, hwriting]
    exact h.larger
  · rw [htodo]
    exact h.first

/-- The worker is done with an effect; those that follow store nothing. -/
theorem WorkerStores.done {eff : Effect Ticket} {todo : List (Effect Ticket)}
    (h : WorkerStores l begun s k) (htodo : l.todo s = eff :: todo) (htodo' : l'.todo s = todo) :
    WorkerStores l' begun s k := by
  have hfirst : ∀ idx sector, .write idx sector ∉ todo := by
    intro idx sector hmem
    exact h.first idx sector (by rw [htodo]; exact hmem)
  have hhead : ∀ idx sector rest, l'.todo s ≠ .write idx sector :: rest := by
    intro idx sector rest heq
    exact hfirst idx sector (by rw [← htodo', heq]; exact List.mem_cons_self ..)
  refine ⟨h.bound, fun idx sector rest heq => absurd heq (hhead idx sector rest),
    fun idx sector rest heq => absurd heq (hhead idx sector rest), fun idx sector hmem => ?_⟩
  rw [htodo'] at hmem
  exact hfirst idx sector (List.mem_of_mem_tail hmem)

/-- A handler has run, and left its effects to be carried out. -/
theorem WorkerStores.works {world : Process.World} {pe : Process.Event} {effs : List (Effect Ticket)}
    (h : WorkerStores l begun s k) (hserved : Served p world s pe effs k k')
    (hmeets : ∀ cmd callback queue, k.queue = (.system cmd, callback) :: queue →
      Meets (TagGrows params) k.register.named cmd)
    (hoc : params.overflowChecks = p.overflowChecks) (hwork : ∃ uuid order, pe = .work s uuid order)
    (htodo : l'.todo s = effs) : WorkerStores l' begun s k' := by
  obtain ⟨uuid, order, rfl⟩ := hwork
  cases hserved with
  | same hne => exact absurd rfl (hne uuid order)
  | running hne => exact absurd rfl (hne uuid order)
  | push hb => cases hb
  | @client _ _ cmd t queue r =>
    obtain ⟨hts, hwr, hval⟩ := clientCommand_copy r cmd t uuid
    rw [clientCommand_effects] at htodo
    refine ⟨?_, by simp [htodo], by simp [htodo], by simp [htodo]⟩
    simp only [hts, hwr]
    exact h.bound
  | @system _ _ cmd callback queue r r' effs hs =>
    rw [← hoc] at hs
    have hbound : ∀ u ∈ begun, sectorTag u ≤ tag r.ts r.wr := h.bound
    rcases (systemCommand_handled hs).copies (hmeets cmd callback queue rfl) with
      ⟨rest, rfl, hlt, hrest⟩ | ⟨⟨hval, hts, hwr⟩, hnone⟩
    · refine ⟨fun u hu => (hbound u hu).trans hlt.le, fun idx sector todo heq => ?_,
        fun idx sector todo heq _ u hu => ?_, ?_⟩
      · rw [htodo] at heq
        obtain ⟨⟨-, rfl⟩, -⟩ : (_ ∧ _ = sector) ∧ _ = todo := by simpa using heq
        refine ⟨rfl, fun hzero => ?_⟩
        obtain ⟨h₁, h₂⟩ := Prod.mk.inj hzero
        have hpos := (tag_zero_le r.ts r.wr).trans_lt hlt
        rw [h₁, h₂] at hpos
        exact lt_irrefl _ hpos
      · rw [htodo] at heq
        obtain ⟨⟨-, rfl⟩, -⟩ : (_ ∧ _ = sector) ∧ _ = todo := by simpa using heq
        exact (hbound u hu).trans_lt hlt
      · rw [htodo]
        exact hrest
    · refine ⟨?_, fun idx sector todo heq => ?_, fun idx sector todo heq => ?_, fun idx sector hmem => ?_⟩
      · simp only [hts, hwr]
        exact hbound
      · exact absurd (by rw [← htodo, heq]; exact List.mem_cons_self ..) (hnone idx sector)
      · exact absurd (by rw [← htodo, heq]; exact List.mem_cons_self ..) (hnone idx sector)
      · rw [htodo] at hmem
        exact hnone idx sector (List.mem_of_mem_tail hmem)

/-! ### Steps of a process that is up -/

/-- A step that leaves the directory and the calls as they are. -/
theorem StoredIn.keeps (h : StoredIn ⟨dir, .up l⟩ ledger calls) (hda : l'.dataAccess = l.dataAccess)
    (hcalls : ∀ s, s ∉ l'.tasks.dead → s ∉ l.tasks.dead ∧ l'.writing s = l.writing s)
    (hworkers : ∀ idx k, idx.toNat ∉ l'.tasks.dead → l'.tasks.world.workers[idx.toNat]? = some k →
      WorkerStores l' (ledger.begun idx) idx.toNat k) : StoredIn ⟨dir, .up l'⟩ ledger calls := by
  refine ⟨?_, fun l₁ hl idx hidx => ?_, fun l₁ hl => ?_⟩
  · have hsound := h.sound
    simp only [storagePhase, hda] at hsound ⊢
    exact hsound
  · obtain rfl := Phase.up.inj hl
    obtain ⟨hidx', hwriting⟩ := hcalls _ hidx
    rw [hwriting]
    exact h.calls l rfl idx hidx'
  · obtain rfl := Phase.up.inj hl
    exact hworkers

/-- A step of one worker, the tasks apart, that leaves the calls as they are. -/
theorem StoredIn.keepsWorkers (h : StoredIn ⟨dir, .up l⟩ ledger calls) (htasks : l'.tasks = l.tasks)
    (hda : l'.dataAccess = l.dataAccess) (hwriting : l'.writing = l.writing)
    (hother : ∀ i, i ≠ s → l'.todo i = l.todo i)
    (hself : ∀ begun k, WorkerStores l begun s k → WorkerStores l' begun s k) :
    StoredIn ⟨dir, .up l'⟩ ledger calls := by
  refine h.keeps hda (fun i hi => ⟨htasks ▸ hi, by rw [hwriting]⟩) fun idx k hidx hk => ?_
  rw [htasks] at hidx hk
  have hstores := h.workers l rfl idx k hidx hk
  rcases eq_or_ne idx.toNat s with rfl | hne
  · exact hself _ k hstores
  · exact hstores.same rfl (hother _ hne) (by rw [hwriting])

/-- The tasks take a step, and no handler is run. -/
theorem StoredIn.task {te : TaskEvent} {tasks : Tasks} {effs : List (Effect Ticket)}
    {client : Client.World SystemRegisterCommand} (h : StoredIn ⟨dir, .up l⟩ ledger calls)
    (hnone : begins te = none) (hs : taskStep (l.config p) l.tasks te = some (tasks, effs)) :
    StoredIn ⟨dir, .up { l with tasks, client }⟩ ledger calls := by
  refine h.keeps rfl (fun s hd => ⟨fun hd' => hd (Process.dead_taskStep hd' (Process.taskStep_stepped hs)).1,
    rfl⟩) fun idx k hidx hk => ?_
  obtain ⟨hidx', k₀, hk₀, hcase⟩ := taskStep_served hs hidx hk
  have hregister : k.register = k₀.register := by
    rcases hcase with ⟨pe, rfl, hserved⟩ | ⟨rfl, -⟩
    · cases hserved with
      | client | system => cases hnone
      | _ => rfl
    · rfl
  exact (h.workers l rfl idx k₀ hidx' hk₀).same hregister rfl rfl

/-- A handler is run, or panics. -/
theorem StoredIn.work {te : TaskEvent} {tasks : Tasks} {effs : List (Effect Ticket)}
    (h : StoredIn ⟨dir, .up l⟩ ledger calls) (hmet : MetBy (TagGrows params) ⟨dir, .up l⟩ (.task te))
    (hoc : params.overflowChecks = p.overflowChecks) (hbegins : begins te = some s)
    (hs : taskStep (l.config p) l.tasks te = some (tasks, effs)) :
    StoredIn ⟨dir, .up { l with tasks, todo := Function.update l.todo s effs }⟩ ledger calls := by
  refine h.keeps rfl (fun s hd => ⟨fun hd' => hd (Process.dead_taskStep hd' (Process.taskStep_stepped hs)).1,
    rfl⟩) fun idx k hidx hk => ?_
  obtain ⟨hidx', k₀, hk₀, hcase⟩ := taskStep_served hs hidx hk
  have hstores := h.workers l rfl idx k₀ hidx' hk₀
  rcases eq_or_ne idx.toNat s with rfl | hne
  · -- the worker itself, which is alive, so that its handler has not panicked
    rcases hcase with ⟨pe, rfl, hserved⟩ | ⟨rfl, hwork, hpanics⟩
    · have hpe : ∃ uuid order, pe = .work idx.toNat uuid order := by
        cases pe with
        | work i uuid order =>
          obtain rfl : i = idx.toNat := Option.some.inj hbegins
          exact ⟨uuid, order, rfl⟩
        | _ => cases hbegins
      refine hstores.works hserved (fun cmd callback queue hqueue => ?_) hoc hpe (Function.update_self ..)
      obtain ⟨uuid, order, rfl⟩ := hpe
      obtain ⟨kqueue, kregister, krunning⟩ := k₀
      obtain rfl : kqueue = _ := hqueue
      exact hmet (kregister, cmd) (by simp [handling, hk₀])
    · cases te with
      | run pe =>
        cases pe with
        | work i uuid order => exact absurd (by rw [Option.some.inj hbegins]) (hwork uuid order)
        | _ => cases hbegins
      | panics i order => exact absurd (by rw [Option.some.inj hbegins]) (hpanics order)
      | _ => cases hbegins
  · have hregister : k.register = k₀.register := by
      rcases hcase with ⟨pe, rfl, hserved⟩ | ⟨rfl, -⟩
      · cases hserved with
        | client | system => exact absurd (Option.some.inj hbegins) hne
        | _ => rfl
      · rfl
    exact hstores.same hregister (Function.update_of_ne hne ..) rfl

/-- A call begins, goes on or ends. -/
theorem StoredIn.update_calls (h : StoredIn ⟨dir, .up l⟩ ledger calls) (idx : SectorIdx) (call : Option Call)
    (j : SectorIdx) (hj : j.toNat ∉ l.tasks.dead) :
    Function.update calls idx call j = Function.update l.writing idx.toNat call j.toNat := by
  rcases eq_or_ne j idx with rfl | hne
  · simp
  · rw [Function.update_of_ne hne, Function.update_of_ne (fun heq => hne (UInt64.toNat_inj.mp heq))]
    exact h.calls l rfl j hj

/-- `write` is called: the tag is larger than that of every write begun for the sector. -/
theorem StoredIn.begins {idx : SectorIdx} {sector : Sector} {todo : List (Effect Ticket)}
    (h : StoredIn ⟨dir, .up l⟩ ledger calls) (hdead : idx.toNat ∉ l.tasks.dead)
    (hk : l.tasks.world.workers[idx.toNat]? = some k) (htodo : l.todo idx.toNat = .write idx sector :: todo)
    (hnone : l.writing idx.toNat = none) :
    StoredIn ⟨dir, .up { l with writing := Function.update l.writing idx.toNat (some ⟨sector, .begun⟩) }⟩
      { ledger with begun := Function.update ledger.begun idx (some sector) }
      (Function.update calls idx (some ⟨sector, .begun⟩)) := by
  have hstores := h.workers l rfl idx k hdead hk
  obtain ⟨hsector, hnz⟩ := hstores.head idx sector todo htodo
  have hcall : calls idx = none := (h.calls l rfl idx hdead).trans hnone
  refine ⟨Storage.Sound.begin h.sound hcall hnz (hstores.larger idx sector todo htodo hnone),
    fun l₁ hl j hj => ?_, fun l₁ hl j k' hj hk' => ?_⟩
  · obtain rfl := Phase.up.inj hl
    exact h.update_calls idx _ j hj
  · obtain rfl := Phase.up.inj hl
    rcases eq_or_ne j idx with rfl | hne
    · obtain rfl : k = k' := Option.some.inj (hk.symm.trans hk')
      refine ⟨fun u hu => ?_, hstores.head, fun _ _ _ _ hw => ?_, hstores.first⟩
      · obtain rfl : sector = u := by simpa using hu
        rw [hsector]
        exact le_refl _
      · simp at hw
    · simp only [Function.update_of_ne hne]
      exact (h.workers l rfl j k' hj hk').same rfl rfl
        (Function.update_of_ne (fun heq => hne (UInt64.toNat_inj.mp heq)) ..)

/-- `write` returns. -/
theorem StoredIn.written {idx : SectorIdx} {sector : Sector} {todo : List (Effect Ticket)} {call : Call}
    (h : StoredIn ⟨dir, .up l⟩ ledger calls) (hdead : idx.toNat ∉ l.tasks.dead)
    (htodo : l.todo idx.toNat = .write idx sector :: todo) (hcall : l.writing idx.toNat = some call)
    (hstage : call.stage = .removed) :
    ∃ ledger' calls', StoredIn ⟨dir, .up { l with
      writing := Function.update l.writing idx.toNat none
      todo := Function.update l.todo idx.toNat todo }⟩ ledger' calls' := by
  obtain ⟨u, stage⟩ := call
  obtain rfl : stage = .removed := hstage
  refine ⟨_, _, Storage.Sound.return h.sound ((h.calls l rfl idx hdead).trans hcall),
    fun l₁ hl j hj => ?_, fun l₁ hl j k hj hk => ?_⟩
  · obtain rfl := Phase.up.inj hl
    exact h.update_calls idx _ j hj
  · obtain rfl := Phase.up.inj hl
    have hstores := h.workers l rfl j k hj hk
    rcases eq_or_ne j idx with rfl | hne
    · exact hstores.done htodo (Function.update_self ..)
    · have hne' : j.toNat ≠ idx.toNat := fun heq => hne (UInt64.toNat_inj.mp heq)
      exact hstores.same rfl (Function.update_of_ne hne' ..) (Function.update_of_ne hne' ..)

/-- A call of `write` takes its next step. -/
theorem StoredIn.advance {idx : SectorIdx} {call call' : Call} {m : SectorsManagerState}
    (h : StoredIn ⟨dir, .up l⟩ ledger calls) (hdead : idx.toNat ∉ l.tasks.dead)
    (hcall : l.writing idx.toNat = some call) (hadv : call.advance idx ⟨dir, l.dataAccess⟩ = some (m, call')) :
    StoredIn ⟨m.dir, .up { l with
      dataAccess := m.dataAccess
      writing := Function.update l.writing idx.toNat (some call') }⟩ ledger
      (Function.update calls idx (some call')) := by
  obtain ⟨m', c', hadv', hsound⟩ := Storage.Sound.advance h.sound ((h.calls l rfl idx hdead).trans hcall)
  obtain ⟨rfl, rfl⟩ := Prod.mk.inj (Option.some.inj (hadv'.symm.trans hadv))
  refine ⟨hsound, fun l₁ hl j hj => ?_, fun l₁ hl j k hj hk => ?_⟩
  · obtain rfl := Phase.up.inj hl
    exact h.update_calls idx _ j hj
  · obtain rfl := Phase.up.inj hl
    have hstores := h.workers l rfl j k hj hk
    rcases eq_or_ne j idx with rfl | hne
    · -- the call goes on, so the worker still waits for it
      exact ⟨hstores.bound, hstores.head, fun _ _ _ _ hw => by simp at hw, hstores.first⟩
    · have hne' : j.toNat ≠ idx.toNat := fun heq => hne (UInt64.toNat_inj.mp heq)
      exact hstores.same rfl rfl (Function.update_of_ne hne' ..)

/-- Worker `s` panics; the call it waited for is never finished. -/
theorem StoredIn.panics (h : StoredIn ⟨dir, .up l⟩ ledger calls) (k : Worker) :
    StoredIn ⟨dir, .up { l with
      tasks := l.tasks.dies (l.config p) s k
      todo := Function.update l.todo s []
      writing := Function.update l.writing s none
      sending := Function.update l.sending s none }⟩ ledger calls := by
  refine h.keeps rfl (fun i hi => ?_) fun idx k' hidx hk' => ?_
  · have hne : i ≠ s := fun heq => hi (by simp [Tasks.dies, heq])
    exact ⟨fun hd => hi (List.mem_cons_of_mem _ hd), Function.update_of_ne hne ..⟩
  · obtain ⟨hidx', hne, hk₀⟩ := Process.dies_other hidx hk'
    exact (h.workers l rfl idx k' hidx' hk₀).same rfl (Function.update_of_ne hne ..)
      (Function.update_of_ne hne ..)

/-! ### Crashes and recoveries -/

theorem StoredIn.crash {phase : Phase} (h : StoredIn ⟨dir, phase⟩ ledger calls) :
    ∃ ledger' calls', StoredIn ⟨dir, .down⟩ ledger' calls' := by
  cases phase with
  | up l => exact ⟨_, calls, Storage.sound_step h.sound .crash, by simp, by simp⟩
  | recovering da remaining =>
    exact ⟨ledger, calls, Storage.sound_step h.sound .crashAgain, by simp, by simp⟩
  | down => exact ⟨ledger, calls, h.sound, by simp, by simp⟩

/-- The ledger of a process that has just recovered: what is found counts as begun. -/
def recoveredLedger (m : SectorsManagerState) : Ledger := ⟨found m, fun _ => none, found m, fun _ => none⟩

/-- A worker starts with the register that is built from its sector. -/
theorem boot_worker {m : SectorsManagerState} (hk : (boot p m).tasks.world.workers[s]? = some k) :
    k = ⟨[], buildAtomicRegister p.selfIdent (.ofNat s) p.processesCount
      ((m.readData (.ofNat s)).getD .zeros, m.readMetadata (.ofNat s)), none⟩ := by
  obtain ⟨i, hi, rfl⟩ := Option.map_eq_some_iff.mp ((List.getElem?_map ..).symm.trans hk)
  obtain ⟨-, rfl⟩ := List.getElem?_eq_some_iff.mp hi
  simp

theorem StoredIn.recovered {da : DataAccess} (h : StoredIn ⟨dir, .recovering da []⟩ ledger calls) :
    StoredIn ⟨dir, .up (boot p ⟨dir, da⟩)⟩ (recoveredLedger ⟨dir, da⟩) fun _ => none := by
  have hsound := Storage.Sound.recovered h.sound
  refine ⟨⟨hsound.named, ⟨fun j u hu => ⟨(hsound.ordered.settled j u hu).1, u, hu, le_refl _⟩,
    by simp [Storage.unfinished, storagePhase], by simp [recoveredLedger]⟩, hsound.consistent⟩,
    fun l hl idx _ => ?_, fun l hl idx k _ hk => ?_⟩
  · obtain rfl := Phase.up.inj hl
    rfl
  · obtain rfl := Phase.up.inj hl
    obtain rfl := boot_worker hk
    refine ⟨fun u hu => ?_, by simp [boot], by simp [boot], by simp [boot]⟩
    obtain ⟨hmap, -⟩ := Storage.found_data (m := ⟨dir, da⟩) hu
    have htag : (SectorsManagerState.mk dir da).readMetadata (.ofNat idx.toNat) = u.2 := by
      rw [UInt64.ofNat_toNat, SectorsManagerState.readMetadata, hmap, Option.getD_some]
    simp only [buildAtomicRegister, AtomicRegisterState.new, htag, sectorTag, le_refl]

/-! ### Runs -/

/-- What a step does to the directory is what the sectors manager is made for. -/
theorem storedIn_step (h : StoredIn w ledger calls) (hfull : WorldFull w)
    (hmanned : Manned p w) (hmet : MetBy (TagGrows params) w e)
    (hoc : params.overflowChecks = p.overflowChecks) (hs : Stepped p key w e w') :
    ∃ ledger' calls', StoredIn w' ledger' calls' := by
  cases hs with
  | task hunfed hnone htask => exact ⟨ledger, calls, h.task hnone htask⟩
  | work hbegins hempty htask => exact ⟨ledger, calls, h.work hmet hoc hbegins htask⟩
  | read hread htask => exact ⟨ledger, calls, h.task rfl htask⟩
  | hangUp hread htask => exact ⟨ledger, calls, h.task rfl htask⟩
  | selfMessage hqueue htask => exact ⟨ledger, calls, h.task rfl htask⟩
  | @begins dir l s idx sector todo hdead htodo hnone =>
    obtain ⟨rfl, -⟩ : idx.toNat = s ∧ Full sector.1 := (hfull.live l rfl).head htodo
    obtain ⟨k, hk⟩ := hmanned.worker (s := idx.toNat) (by simp [htodo])
    exact ⟨_, _, h.begins hdead hk htodo hnone⟩
  | @written dir l s idx sector todo call hdead htodo hcall hstage =>
    obtain ⟨rfl, -⟩ : idx.toNat = s ∧ Full sector.1 := (hfull.live l rfl).head htodo
    exact h.written hdead htodo hcall hstage
  | calls hdead htodo hcall hnone hstep =>
    exact ⟨ledger, calls, h.keepsWorkers (s := 0) rfl rfl rfl (fun _ _ => rfl) fun _ _ hk => hk.same rfl rfl rfl⟩
  | returns hdead htodo hcall hsome hdone =>
    exact ⟨ledger, calls, h.keepsWorkers rfl rfl rfl (fun i hi => Function.update_of_ne hi ..)
      fun _ _ hk => hk.done htodo (Function.update_self ..)⟩
  | callback hdead htodo =>
    exact ⟨ledger, calls, h.keepsWorkers rfl rfl rfl (fun i hi => Function.update_of_ne hi ..)
      fun _ _ hk => hk.done htodo (Function.update_self ..)⟩
  | push hdead hsome hstep =>
    exact ⟨ledger, calls, h.keepsWorkers (s := 0) rfl rfl rfl (fun _ _ => rfl) fun _ _ hk => hk.same rfl rfl rfl⟩
  | client hof hstep =>
    exact ⟨ledger, calls, h.keepsWorkers (s := 0) rfl rfl rfl (fun _ _ => rfl) fun _ _ hk => hk.same rfl rfl rfl⟩
  | @advance dir l s idx sector todo call call' m hdead htodo hcall hadv =>
    obtain ⟨rfl, -⟩ : idx.toNat = s ∧ Full sector.1 := (hfull.live l rfl).head htodo
    exact ⟨_, _, h.advance hdead hcall hadv⟩
  | @fillPartly dir l s n idx sector todo v hdead htodo hcall =>
    obtain ⟨rfl, -⟩ : idx.toNat = s ∧ Full sector.1 := (hfull.live l rfl).head htodo
    exact ⟨ledger, calls, Storage.Sound.fillPartly h.sound ((h.calls l rfl idx hdead).trans hcall) _,
      h.calls, h.workers⟩
  | panics he hdead hk => exact ⟨ledger, calls, h.panics _⟩
  | crash hphase => exact h.crash
  | restart hperm => exact ⟨ledger, calls, Storage.Sound.restart h.sound hperm, by simp, by simp⟩
  | recover hentry =>
    obtain ⟨dir', da', hentry', hsound⟩ := Storage.Sound.recover h.sound
    obtain ⟨rfl, rfl⟩ := Prod.mk.inj (Option.some.inj (hentry'.symm.trans hentry))
    exact ⟨ledger, calls, hsound, by simp, by simp⟩
  | recoverPanics hentry =>
    obtain ⟨dir', da', hentry', -⟩ := Storage.Sound.recover h.sound
    simp [hentry] at hentry'
  | recovered => exact ⟨_, _, h.recovered⟩

end AtomicDisk.Node
