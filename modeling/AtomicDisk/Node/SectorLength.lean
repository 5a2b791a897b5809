import AtomicDisk.Node.Lengths
import AtomicDisk.Node.Steps
import AtomicDisk.Process.Responses

/-! Every sector in a process has 4096 bytes, over all its crashes. A process that is up keeps it in each of
    its parts and in the directory; what it leaves there when it crashes are full files, and temporary files
    that recovery removes without reading them.

        up:         registers, queues, effects, messages   full        files   full      temporary files   any
        down:                                                          files   full      temporary files   any
        recovered:  registers built from the files         full        files   full                        -  -/

namespace AtomicDisk.Node
open Schemes Register Transfer
open Process (Config Tasks TaskEvent Ticket taskStep)
open Storage (FileName Sector DataAccess Call SectorsManagerState fileAt tmpAt)

/-! ### A process that is up -/

/-- The sectors of a process that is up, over a directory. -/
structure LiveFull (dir : Directory FileName) (l : Live) : Prop where
  sectors : ∀ s, Full (l.sectors s).1
  tasks : TasksFull l.tasks.world
  messages : ClientAll (fun m => Sized (.system m)) l.client
  effects : ∀ s, ∀ eff ∈ l.todo s, EffectFull s eff
  writes : ∀ s call, l.writing s = some call →
    ∃ idx todo, l.todo s = .write idx call.sector :: todo ∧ CallFull dir idx call

variable {p : Config} {key : List UInt8} {dir dir' : Directory FileName} {l l' : Live} {s : ℕ}
  {eff : Effect Ticket} {todo : List (Effect Ticket)}

theorem LiveFull.effects_update (h : LiveFull dir l) (hfull : ∀ eff ∈ todo, EffectFull s eff) :
    ∀ i, ∀ eff ∈ Function.update l.todo s todo i, EffectFull i eff := by
  intro i
  rcases eq_or_ne i s with rfl | hne
  · rw [Function.update_self]
    exact hfull
  · rw [Function.update_of_ne hne]
    exact h.effects i

theorem LiveFull.head (h : LiveFull dir l) (htodo : l.todo s = eff :: todo) : EffectFull s eff :=
  h.effects s eff (htodo ▸ List.mem_cons_self ..)

theorem LiveFull.tail (h : LiveFull dir l) (htodo : l.todo s = eff :: todo) : ∀ eff ∈ todo, EffectFull s eff :=
  fun x hx => h.effects s x (htodo ▸ List.mem_cons_of_mem _ hx)

/-- A worker that is not busy with a `write` waits for none. -/
theorem LiveFull.not_writing (h : LiveFull dir l)
    (hhead : ∀ idx sector, (l.todo s).head? ≠ some (.write idx sector)) : l.writing s = none := by
  cases hw : l.writing s with
  | none => rfl
  | some call =>
    obtain ⟨idx, todo, htodo, -⟩ := h.writes s call hw
    exact absurd (by rw [htodo]; rfl) (hhead idx call.sector)

/-- The effects of worker `s` are replaced, while it waits for no `write`. -/
theorem LiveFull.setTodo (h : LiveFull dir l) (hw : l.writing s = none) (hfull : ∀ eff ∈ todo, EffectFull s eff) :
    LiveFull dir { l with todo := Function.update l.todo s todo } := by
  refine ⟨h.sectors, h.tasks, h.messages, h.effects_update hfull, fun s' call hcall => ?_⟩
  have hne : s' ≠ s := by
    rintro rfl
    cases hw.symm.trans hcall
  simp only [Function.update_of_ne hne]
  exact h.writes s' call hcall

/-- Worker `s` stops waiting for a `write`. -/
theorem LiveFull.stopWriting (h : LiveFull dir l) (hfull : ∀ eff ∈ todo, EffectFull s eff) :
    LiveFull dir { l with
      todo := Function.update l.todo s todo
      writing := Function.update l.writing s none } := by
  refine ⟨h.sectors, h.tasks, h.messages, h.effects_update hfull, fun s' call hcall => ?_⟩
  rcases eq_or_ne s' s with rfl | hne
  · simp at hcall
  · simp only [Function.update_of_ne hne] at hcall ⊢
    exact h.writes s' call hcall

/-- The `write` of worker `s` takes a step. It leaves alone the temporary files of other sectors, and so the
    calls of other workers. -/
theorem LiveFull.setCall {idx : SectorIdx} {call : Call} (h : LiveFull dir l)
    (htodo : l.todo s = .write idx call.sector :: todo) (hfull : CallFull dir' idx call)
    (hother : ∀ j, j ≠ idx → tmpAt dir' j = tmpAt dir j) :
    LiveFull dir' { l with writing := Function.update l.writing s (some call) } := by
  have hidx : idx.toNat = s ∧ Full call.sector.1 := h.head htodo
  refine ⟨h.sectors, h.tasks, h.messages, h.effects, fun s' call' hcall' => ?_⟩
  rcases eq_or_ne s' s with rfl | hne
  · simp only [Function.update_self] at hcall'
    obtain rfl := Option.some.inj hcall'
    exact ⟨idx, todo, htodo, hfull⟩
  · simp only [Function.update_of_ne hne] at hcall'
    obtain ⟨j, todo', htodo', hfull'⟩ := h.writes s' call' hcall'
    have hj : j.toNat = s' ∧ Full call'.sector.1 := h.head htodo'
    have hji : j ≠ idx := by
      rintro rfl
      exact hne (hj.1.symm.trans hidx.1)
    exact ⟨j, todo', htodo', hfull'.sector, fun hstage => hother j hji ▸ hfull'.filled hstage⟩

/-- The `write` that worker `s` waits for is the effect it has come to. -/
theorem LiveFull.call {idx : SectorIdx} {sector : Sector} {call : Call} (h : LiveFull dir l)
    (htodo : l.todo s = .write idx sector :: todo) (hcall : l.writing s = some call) :
    sector = call.sector ∧ CallFull dir idx call := by
  obtain ⟨idx', todo', htodo', hfull⟩ := h.writes s call hcall
  obtain ⟨⟨rfl, rfl⟩, rfl⟩ : (idx = idx' ∧ sector = call.sector) ∧ todo = todo' := by
    simpa using htodo.symm.trans htodo'
  exact ⟨rfl, hfull⟩

/-- Worker `s` panics. -/
theorem LiveFull.dies {k : Process.Worker} (h : LiveFull dir l) (hk : l.tasks.world.workers[s]? = some k)
    (sending : ℕ → Option ℕ) : LiveFull dir { l with
      tasks := l.tasks.dies (l.config p) s k
      todo := Function.update l.todo s []
      writing := Function.update l.writing s none
      sending } := by
  have hstop : LiveFull dir { l with
      todo := Function.update l.todo s []
      writing := Function.update l.writing s none } := h.stopWriting (by simp)
  exact ⟨h.sectors, h.tasks.dies h.sectors hk (fun x hx => hx) k.running, h.messages, hstop.effects,
    hstop.writes⟩

theorem LiveFull.setTasks {tasks : Tasks} (h : LiveFull dir l) (ht : TasksFull tasks.world) :
    LiveFull dir { l with tasks } :=
  ⟨h.sectors, ht, h.messages, h.effects, h.writes⟩

theorem LiveFull.setClient {client : Client.World SystemRegisterCommand} (h : LiveFull dir l)
    (hc : ClientAll (fun m => Sized (.system m)) client) : LiveFull dir { l with client } :=
  ⟨h.sectors, h.tasks, hc, h.effects, h.writes⟩

/-- What is given to the client is in the effect that calls it. -/
theorem clientCall_sized {e : Client.Event SystemRegisterCommand} (heff : EffectFull s eff)
    (he : clientCall eff = some e) : ∀ m ∈ given e, Sized (.system m) := by
  rintro m hm
  cases eff with
  | send msg | broadcast cmd =>
    obtain rfl := Option.some.inj he
    obtain rfl := Option.some.inj hm
    exact heff
  | _ => cases he

/-! ### Runs -/

/-- `build_atomic_register` reads full sectors: `read_exact` fills a buffer of 4096 bytes. -/
theorem readData_length {m : SectorsManagerState} {idx : SectorIdx} {v : SectorVec}
    (h : m.readData idx = some v) : Full v := by
  unfold SectorsManagerState.readData at h
  split at h
  · obtain ⟨bytes, hbytes, rfl⟩ := Option.map_eq_some_iff.mp h
    obtain ⟨c, -, hc⟩ := Option.bind_eq_some_iff.mp hbytes
    split at hc
    · rename_i hle
      obtain rfl := Option.some.inj hc
      exact List.length_take_of_le hle
    · simp at hc
  · obtain rfl := Option.some.inj h
    exact full_zeros

theorem liveFull_boot (p : Config) (m : SectorsManagerState) : LiveFull dir (boot p m) := by
  have hsectors : ∀ s, Full ((boot p m).sectors s).1 := by
    intro s
    simp only [boot]
    cases hread : m.readData (.ofNat s) with
    | none => exact full_zeros
    | some v => exact readData_length hread
  refine ⟨hsectors, ⟨by simp [boot, Process.initTasks, Process.init], fun s k hk => ?_⟩, clientAll_init,
    by simp [boot], by simp [boot]⟩
  obtain ⟨hlt, rfl⟩ := List.getElem?_eq_some_iff.mp hk
  have hs : s < p.nSectors.toNat := by simpa [boot, Process.initTasks, Process.init] using hlt
  simp only [boot, Process.initTasks, Process.init, List.getElem_map, List.getElem_range]
  refine ⟨by simp, registerFull_build _ _ _ (hsectors s), by simp, ?_⟩
  exact UInt64.toNat_ofNat_of_lt' (hs.trans p.nSectors.toNat_lt)

/-- The sectors of a process, up or down. -/
structure WorldFull (w : World) : Prop where
  files : FilesFull w.dir
  live : ∀ l, w.phase = .up l → LiveFull w.dir l

theorem WorldFull.up (hfiles : FilesFull dir) (hl : LiveFull dir l) : WorldFull ⟨dir, .up l⟩ :=
  ⟨hfiles, fun _ heq => Phase.up.inj heq ▸ hl⟩

/-- Commands come to the tasks from `deserialize_rc` and from the self channel only. -/
theorem worldFull_step {w w' : World} {e : Event} (h : WorldFull w) (hs : Stepped p key w e w') :
    WorldFull w' := by
  have hfiles := h.files
  cases hs with
  | @task dir l te tasks effs hunfed hnone htask =>
    have hl := h.live l rfl
    refine .up hfiles (hl.setTasks (tasksFull_taskStep hl.tasks hl.sectors (fun pe he => ?_) htask).1)
    cases he
    cases pe with
    | receive | selfMessage => cases hunfed
    | _ => trivial
  | @work dir l te i tasks effs hbegins hempty htask =>
    have hl := h.live l rfl
    obtain ⟨htasks, heffs⟩ := tasksFull_taskStep hl.tasks hl.sectors (fun pe he => by
      cases he
      cases pe with
      | work => trivial
      | _ => cases hbegins) htask
    have hw := hl.not_writing (s := i) (by simp [hempty])
    exact .up hfiles ((hl.setTasks htasks).setTodo hw (heffs i hbegins))
  | @read dir l c stream rest cmd ok tasks effs hread htask =>
    have hl := h.live l rfl
    have hcmd : Sized cmd := deserializeRc_sized _ _ _ _ _ hread
    exact .up hfiles (hl.setTasks (tasksFull_taskStep hl.tasks hl.sectors (by rintro pe ⟨⟩; exact hcmd) htask).1)
  | @hangUp dir l c stream fault tasks effs hread htask =>
    have hl := h.live l rfl
    exact .up hfiles (hl.setTasks (tasksFull_taskStep hl.tasks hl.sectors (by rintro pe ⟨⟩; trivial) htask).1)
  | @selfMessage dir l cmd queue tasks effs hqueue htask =>
    have hl := h.live l rfl
    have hcmd : Sized (.system cmd) := hl.messages.self cmd (hqueue ▸ List.mem_cons_self ..)
    have ht := hl.setTasks (tasksFull_taskStep hl.tasks hl.sectors (by rintro pe ⟨⟩; exact hcmd) htask).1
    exact .up hfiles (ht.setClient ⟨hl.messages.calls, hl.messages.links, fun m hm =>
      hl.messages.self m (hqueue ▸ List.mem_cons_of_mem _ hm)⟩)
  | @begins dir l i idx sector todo hdead htodo hnone =>
    have hl := h.live l rfl
    have heff : idx.toNat = i ∧ Full sector.1 := hl.head htodo
    exact .up hfiles (hl.setCall htodo ⟨heff.2, by simp⟩ fun j _ => rfl)
  | @written dir l i idx sector todo call hdead htodo hcall hstage =>
    have hl := h.live l rfl
    exact .up hfiles (hl.stopWriting (hl.tail htodo))
  | @calls dir l i eff todo ev client hdead htodo hcall hnone hstep =>
    have hl := h.live l rfl
    have hc := hl.setClient (clientAll_step hl.messages (clientCall_sized (hl.head htodo) hcall) hstep)
    exact .up hfiles ⟨hc.sectors, hc.tasks, hc.messages, hc.effects, hc.writes⟩
  | @returns dir l i j eff todo ev hdead htodo hcall hsome hdone =>
    have hl := h.live l rfl
    have hw : l.writing i = none := hl.not_writing fun idx sector hhead => by
      rw [htodo] at hhead
      obtain rfl := Option.some.inj hhead
      cases hcall
    have ht := hl.setTodo hw (hl.tail htodo)
    exact .up hfiles ⟨ht.sectors, ht.tasks, ht.messages, ht.effects, ht.writes⟩
  | @callback dir l i t op todo hdead htodo =>
    have hl := h.live l rfl
    exact .up hfiles (hl.setTodo (hl.not_writing (by simp [htodo])) (hl.tail htodo))
  | @push dir l i j client hdead hsome hstep =>
    have hl := h.live l rfl
    exact .up hfiles (hl.setClient (clientAll_step hl.messages (by simp [given]) hstep))
  | @client dir l ev client hof hstep =>
    have hl := h.live l rfl
    refine .up hfiles (hl.setClient (clientAll_step hl.messages ?_ hstep))
    cases ev with
    | write | tick | take => simp [given]
    | _ => cases hof
  | @advance dir l i idx sector todo call call' m hdead htodo hcall hadv =>
    have hl := h.live l rfl
    obtain ⟨rfl, hfull⟩ := hl.call htodo hcall
    obtain ⟨hfiles', hfull', hsector, hother⟩ := advance_full (m := ⟨dir, l.dataAccess⟩) hfiles hfull hadv
    have hset := hl.setCall (hsector ▸ htodo) hfull' hother
    exact .up hfiles' ⟨hset.sectors, hset.tasks, hset.messages, hset.effects, hset.writes⟩
  | @fillPartly dir l i k idx sector todo v hdead htodo hcall =>
    have hl := h.live l rfl
    obtain ⟨rfl, hfull⟩ := hl.call htodo hcall
    refine .up (hfiles.fill_tmp sector.2 _) ?_
    have hset : LiveFull (dir.fill (Storage.sectoridxTmpFilePath idx sector.2.1 sector.2.2)
        (sector.1.data.take k)) { l with writing := Function.update l.writing i (some ⟨sector, .created⟩) } :=
      hl.setCall htodo ⟨hfull.sector, by simp⟩ fun j hj =>
        (Storage.tmpAt_fill_tmp (t := sector.2) _).trans (if_neg hj)
    rwa [← hcall, Function.update_eq_self] at hset
  | @panics dir l e i k he hdead hk => exact .up hfiles ((h.live l rfl).dies hk _)
  | crash | restart | recoverPanics => exact ⟨hfiles, by simp⟩
  | recover hrec => exact ⟨hfiles.recoverEntry hrec, by simp⟩
  | recovered => exact .up hfiles (liveFull_boot ..)

theorem worldFull {tr : NodeTrace} {w : World} (hr : NodeRun p key tr w) : WorldFull w := by
  induction hr with
  | nil =>
    refine ⟨fun idx t bytes hfile => ?_, by simp [init]⟩
    simp [init, fileAt] at hfile
  | snoc _ _ hs ih => exact worldFull_step ih (step_stepped hs)

/-- A message that is written to another process is read back, and what follows it is left. -/
def WellFramed (p : Config) (key : List UInt8) (m : SystemRegisterCommand) : Prop :=
  ∀ rest, deserializeRc p.hmac ⟨key, p.hmacClientKey⟩ (serializeRc p.hmac (.system m) key ++ rest) =
    .ok ((.system m, true), rest)

theorem wellFramed_of_sized {m : SystemRegisterCommand} (h : Sized (.system m)) : WellFramed p key m := by
  intro rest
  exact deserializeRc_serializeRc [] rest (.system m) (by decide) h

/-- CORRECT (sectors of 4096 bytes): in every reachable state of a process, over all its crashes, every
    sector has 4096 bytes: in the registers, in the commands and effects on the way, in what a read returns,
    in the messages and in the files. So every message is well framed, and `read_data` fails only where there
    is no file. -/
theorem sectors_have_4096_bytes {tr : NodeTrace} {w : World} (hr : NodeRun p key tr w) :
    (∀ l, w.phase = .up l → TasksFull l.tasks.world ∧ (∀ s, ∀ eff ∈ l.todo s, EffectFull s eff) ∧
      (∀ s call, l.writing s = some call → Full call.sector.1) ∧
      ClientAll (fun m => Sized (.system m)) l.client ∧ ClientAll (WellFramed p key) l.client) ∧
    FilesFull w.dir ∧
    ∀ dataAccess idx, (∀ t, dataAccess.lookup idx = some t → (fileAt w.dir idx t).isSome = true) →
      ∃ v, (SectorsManagerState.mk w.dir dataAccess).readData idx = some v ∧ Full v := by
  obtain ⟨hfiles, hlive⟩ := worldFull hr
  refine ⟨fun l hup => ?_, hfiles, fun dataAccess idx hfile => readData_full hfiles hfile⟩
  have hl := hlive l hup
  refine ⟨hl.tasks, hl.effects, fun s call hcall => ?_, hl.messages, hl.messages.imp fun m hm =>
    wellFramed_of_sized hm⟩
  obtain ⟨idx, todo, -, hfull⟩ := hl.writes s call hcall
  exact hfull.sector

/-- A sector arrives in a WRITE_PROC and is being stored when the process crashes, before the old file
    would be removed; the process recovers. -/
def storedThroughCrash : List Event :=
  [.restart [], .recover, .task (.run .accept),
    .read 0 (serializeRc sumHmac (.system ⟨⟨1, uuid 1, 0⟩, .writeProc 1 1 (filled 7)⟩) []),
    .task (.run (.work 0 (uuid 1) .asIs)), .perform 0, .write 0, .fillPartly 0 100, .write 0, .write 0, .crash,
    .restart [Storage.sectoridxFilePath 0 1 1], .recover, .recover]

section run
-- sectors of 4096 bytes are compared byte by byte when a concrete run is replayed
set_option maxRecDepth 40000

theorem storedThroughCrash_full : ∃ tr w l, NodeRun Process.oneSector [] tr w ∧ w.phase = .up l ∧
    fileAt w.dir 0 (1, 1) = some (filled 7).data ∧ FilesFull w.dir ∧ TasksFull l.tasks.world := by
  obtain ⟨tr, w, hr, hobs⟩ := Run.exists_of_exec (step Process.oneSector []) (fun _ _ => True) init
    storedThroughCrash (fun _ w => match w.phase with
      | .up _ => decide (fileAt w.dir 0 (1, 1) = some (filled 7).data)
      | _ => false) (by decide +kernel)
  split at hobs
  · rename_i l hup
    obtain ⟨hlive, hfiles, -⟩ := sectors_have_4096_bytes hr
    exact ⟨tr, w, l, hr, hup, of_decide_eq_true hobs, hfiles, (hlive l hup).1⟩
  · simp at hobs

end run

end AtomicDisk.Node
