import AtomicDisk.Node.RunRegisterProcess

/-! What one step of a process can do. `Stepped` lists the steps of a process that is up, of one that recovers
    and of one that is down, each with what it finds and the state it leaves; a step is one of them
    (`step_stepped`). Proofs about runs of a process split on these and never unfold `step`; the first is that
    the tasks keep their permits over all crashes (`manned`). -/

namespace AtomicDisk.Node
open Schemes Register Transfer
open Process (Config Tasks TaskEvent Ticket taskStep)
open Storage (FileName DataAccess Call Stage SectorsManagerState recoverEntry sectoridxTmpFilePath)

/-- The call of the register client that an effect makes. -/
def clientCall : Effect Ticket → Option (Client.Event SystemRegisterCommand)
  | .send msg => some (.send msg.cmd msg.target)
  | .broadcast cmd => some (.broadcast cmd)
  | _ => none

/-- The steps: state, event, state after it. -/
inductive Stepped (p : Config) (key : List UInt8) : World → Event → World → Prop
  /-- a step of the tasks in which no handler is run -/
  | task {dir : Directory FileName} {l : Live} {e : TaskEvent} {tasks : Tasks} {effs : List (Effect Ticket)} :
      unfed e = true → begins e = none → taskStep (l.config p) l.tasks e = some (tasks, effs) →
      Stepped p key ⟨dir, .up l⟩ (.task e) ⟨dir, .up { l with tasks }⟩
  /-- a handler is run, and its effects are to be carried out -/
  | work {dir : Directory FileName} {l : Live} {e : TaskEvent} {s : ℕ} {tasks : Tasks}
      {effs : List (Effect Ticket)} : begins e = some s → l.todo s = [] →
      taskStep (l.config p) l.tasks e = some (tasks, effs) →
      Stepped p key ⟨dir, .up l⟩ (.task e)
        ⟨dir, .up { l with tasks, todo := Function.update l.todo s effs }⟩
  | read {dir : Directory FileName} {l : Live} {c : ℕ} {stream rest : List UInt8} {cmd : RegisterCommand}
      {hmacOk : Bool} {tasks : Tasks} {effs : List (Effect Ticket)} :
      deserializeRc p.hmac ⟨key, p.hmacClientKey⟩ stream = .ok ((cmd, hmacOk), rest) →
      taskStep (l.config p) l.tasks (.run (.receive c cmd hmacOk)) = some (tasks, effs) →
      Stepped p key ⟨dir, .up l⟩ (.read c stream) ⟨dir, .up { l with tasks }⟩
  | hangUp {dir : Directory FileName} {l : Live} {c : ℕ} {stream : List UInt8} {fault : Fault}
      {tasks : Tasks} {effs : List (Effect Ticket)} :
      deserializeRc p.hmac ⟨key, p.hmacClientKey⟩ stream = .error fault →
      taskStep (l.config p) l.tasks (.run (.hangUp c)) = some (tasks, effs) →
      Stepped p key ⟨dir, .up l⟩ (.read c stream) ⟨dir, .up { l with tasks }⟩
  | selfMessage {dir : Directory FileName} {l : Live} {cmd : SystemRegisterCommand}
      {queue : List SystemRegisterCommand} {tasks : Tasks} {effs : List (Effect Ticket)} :
      l.client.selfQueue = cmd :: queue →
      taskStep (l.config p) l.tasks (.run (.selfMessage cmd)) = some (tasks, effs) →
      Stepped p key ⟨dir, .up l⟩ .selfMessage
        ⟨dir, .up { l with tasks, client := { l.client with selfQueue := queue } }⟩
  /-- `write` is called -/
  | begins {dir : Directory FileName} {l : Live} {s : ℕ} {idx : SectorIdx} {sector : Storage.Sector}
      {todo : List (Effect Ticket)} : s ∉ l.tasks.dead → l.todo s = .write idx sector :: todo →
      l.writing s = none →
      Stepped p key ⟨dir, .up l⟩ (.perform s)
        ⟨dir, .up { l with writing := Function.update l.writing s (some ⟨sector, .begun⟩) }⟩
  /-- `write` returns -/
  | written {dir : Directory FileName} {l : Live} {s : ℕ} {idx : SectorIdx} {sector : Storage.Sector}
      {todo : List (Effect Ticket)} {call : Call} : s ∉ l.tasks.dead →
      l.todo s = .write idx sector :: todo → l.writing s = some call → call.stage = .removed →
      Stepped p key ⟨dir, .up l⟩ (.perform s)
        ⟨dir, .up { l with
          writing := Function.update l.writing s none
          todo := Function.update l.todo s todo }⟩
  /-- `send` or `broadcast` is called -/
  | calls {dir : Directory FileName} {l : Live} {s : ℕ} {eff : Effect Ticket} {todo : List (Effect Ticket)}
      {e : Client.Event SystemRegisterCommand} {client : Client.World SystemRegisterCommand} :
      s ∉ l.tasks.dead → l.todo s = eff :: todo → clientCall eff = some e → l.sending s = none →
      Client.step (clientOf p) l.client e = some (client, ()) →
      Stepped p key ⟨dir, .up l⟩ (.perform s)
        ⟨dir, .up { l with
          client, sending := Function.update l.sending s (some l.client.calls.length) }⟩
  /-- `send` or `broadcast` returns -/
  | returns {dir : Directory FileName} {l : Live} {s i : ℕ} {eff : Effect Ticket}
      {todo : List (Effect Ticket)} {e : Client.Event SystemRegisterCommand} : s ∉ l.tasks.dead →
      l.todo s = eff :: todo → clientCall eff = some e → l.sending s = some i → l.client.calls[i]? = some [] →
      Stepped p key ⟨dir, .up l⟩ (.perform s)
        ⟨dir, .up { l with
          sending := Function.update l.sending s none
          todo := Function.update l.todo s todo }⟩
  /-- the callback is left to the steps of the tasks -/
  | callback {dir : Directory FileName} {l : Live} {s : ℕ} {t : Ticket} {op : OperationSuccess}
      {todo : List (Effect Ticket)} : s ∉ l.tasks.dead → l.todo s = .callback t op :: todo →
      Stepped p key ⟨dir, .up l⟩ (.perform s) ⟨dir, .up { l with todo := Function.update l.todo s todo }⟩
  | push {dir : Directory FileName} {l : Live} {s i : ℕ} {client : Client.World SystemRegisterCommand} :
      s ∉ l.tasks.dead → l.sending s = some i →
      Client.step (clientOf p) l.client (.push i) = some (client, ()) →
      Stepped p key ⟨dir, .up l⟩ (.push s) ⟨dir, .up { l with client }⟩
  | client {dir : Directory FileName} {l : Live} {e : Client.Event SystemRegisterCommand}
      {client : Client.World SystemRegisterCommand} : ofClient e = true →
      Client.step (clientOf p) l.client e = some (client, ()) →
      Stepped p key ⟨dir, .up l⟩ (.client e) ⟨dir, .up { l with client }⟩
  | advance {dir : Directory FileName} {l : Live} {s : ℕ} {idx : SectorIdx} {sector : Storage.Sector}
      {todo : List (Effect Ticket)} {call call' : Call} {m : SectorsManagerState} : s ∉ l.tasks.dead →
      l.todo s = .write idx sector :: todo → l.writing s = some call →
      call.advance idx ⟨dir, l.dataAccess⟩ = some (m, call') →
      Stepped p key ⟨dir, .up l⟩ (.write s)
        ⟨m.dir, .up { l with
          dataAccess := m.dataAccess
          writing := Function.update l.writing s (some call') }⟩
  | fillPartly {dir : Directory FileName} {l : Live} {s k : ℕ} {idx : SectorIdx} {sector : Storage.Sector}
      {todo : List (Effect Ticket)} {v : Storage.Sector} : s ∉ l.tasks.dead →
      l.todo s = .write idx sector :: todo → l.writing s = some ⟨v, .created⟩ →
      Stepped p key ⟨dir, .up l⟩ (.fillPartly s k)
        ⟨dir.fill (sectoridxTmpFilePath idx v.2.1 v.2.2) (v.1.data.take k), .up l⟩
  /-- worker `s` panics while it carries out an effect -/
  | panics {dir : Directory FileName} {l : Live} {e : Event} {s : ℕ} {k : Process.Worker} :
      e = .perform s ∨ e = .push s ∨ e = .write s → s ∉ l.tasks.dead →
      l.tasks.world.workers[s]? = some k →
      Stepped p key ⟨dir, .up l⟩ e
        ⟨dir, .up { l with
          tasks := l.tasks.dies (l.config p) s k
          todo := Function.update l.todo s []
          writing := Function.update l.writing s none
          sending := Function.update l.sending s none }⟩
  | crash {dir : Directory FileName} {phase : Phase} : phase ≠ .down →
      Stepped p key ⟨dir, phase⟩ .crash ⟨dir, .down⟩
  | restart {dir : Directory FileName} {listing : List FileName} : listing.Perm dir.keys →
      Stepped p key ⟨dir, .down⟩ (.restart listing) ⟨dir, .recovering ∅ listing⟩
  | recover {dir dir' : Directory FileName} {da da' : DataAccess} {n : FileName} {remaining : List FileName} :
      recoverEntry dir da n = some (dir', da') →
      Stepped p key ⟨dir, .recovering da (n :: remaining)⟩ .recover ⟨dir', .recovering da' remaining⟩
  | recoverPanics {dir : Directory FileName} {da : DataAccess} {n : FileName} {remaining : List FileName} :
      recoverEntry dir da n = none →
      Stepped p key ⟨dir, .recovering da (n :: remaining)⟩ .recover ⟨dir, .down⟩
  | recovered {dir : Directory FileName} {da : DataAccess} :
      Stepped p key ⟨dir, .recovering da []⟩ .recover ⟨dir, .up (boot p ⟨dir, da⟩)⟩

variable {p : Config} {key : List UInt8} {dir dir' : Directory FileName} {l l' : Live} {w w' : World}
  {e : Event} {s : ℕ}

theorem panics_stepped (he : e = .perform s ∨ e = .push s ∨ e = .write s) (hdead : s ∉ l.tasks.dead)
    (hs : l.panics p s = some l') : Stepped p key ⟨dir, .up l⟩ e ⟨dir, .up l'⟩ := by
  obtain ⟨k, hk, rfl⟩ := Option.map_eq_some_iff.mp hs
  exact .panics he hdead hk

theorem calls_stepped {eff : Effect Ticket} {todo : List (Effect Ticket)}
    {ev : Client.Event SystemRegisterCommand} (hdead : s ∉ l.tasks.dead) (htodo : l.todo s = eff :: todo)
    (hcall : clientCall eff = some ev) (hs : l.calls p s ev todo = some l') :
    Stepped p key ⟨dir, .up l⟩ (.perform s) ⟨dir, .up l'⟩ := by
  simp only [Live.calls] at hs
  split at hs
  · rename_i hnone
    split at hs
    · rename_i client o hstep
      obtain rfl := Option.some.inj hs
      exact .calls hdead htodo hcall hnone hstep
    · exact panics_stepped (Or.inl rfl) hdead hs
  · rename_i i hsome
    split at hs
    · rename_i hdone
      obtain rfl := Option.some.inj hs
      exact .returns hdead htodo hcall hsome hdone
    · simp at hs

theorem perform_stepped (hs : l.perform p s = some l') :
    Stepped p key ⟨dir, .up l⟩ (.perform s) ⟨dir, .up l'⟩ := by
  simp only [Live.perform] at hs
  split at hs
  · simp at hs
  rename_i hdead
  split at hs
  · simp at hs
  · rename_i idx sector todo htodo
    split at hs
    · rename_i hnone
      obtain rfl := Option.some.inj hs
      exact .begins hdead htodo hnone
    · rename_i call hsome
      split at hs
      · rename_i hstage
        obtain rfl := Option.some.inj hs
        exact .written hdead htodo hsome hstage
      · simp at hs
  · rename_i msg todo htodo
    exact calls_stepped hdead htodo rfl hs
  · rename_i cmd todo htodo
    exact calls_stepped hdead htodo rfl hs
  · rename_i t op todo htodo
    obtain rfl := Option.some.inj hs
    exact .callback hdead htodo

theorem push_stepped (hs : l.push p s = some l') : Stepped p key ⟨dir, .up l⟩ (.push s) ⟨dir, .up l'⟩ := by
  simp only [Live.push] at hs
  split at hs
  · simp at hs
  rename_i hdead
  obtain ⟨i, hi, hs⟩ := Option.bind_eq_some_iff.mp hs
  split at hs
  · exact panics_stepped (Or.inr (Or.inl rfl)) hdead hs
  · obtain ⟨⟨client, o⟩, hstep, rfl⟩ := Option.map_eq_some_iff.mp hs
    exact .push hdead hi hstep

theorem write_stepped (hs : l.write p dir s = some (dir', l')) :
    Stepped p key ⟨dir, .up l⟩ (.write s) ⟨dir', .up l'⟩ := by
  simp only [Live.write] at hs
  split at hs
  · simp at hs
  rename_i hdead
  split at hs
  · rename_i idx sector todo call htodo hcall
    split at hs
    · rename_i m call' hadv
      obtain ⟨rfl, rfl⟩ := Prod.mk.inj (Option.some.inj hs)
      exact .advance hdead htodo hcall hadv
    · obtain ⟨l₁, hp, heq⟩ := Option.map_eq_some_iff.mp hs
      obtain ⟨rfl, rfl⟩ := Prod.mk.inj heq
      exact panics_stepped (Or.inr (Or.inr rfl)) hdead hp
  · simp at hs

theorem fillPartly_stepped {k : ℕ} (hs : l.fillPartly dir s k = some dir') :
    Stepped p key ⟨dir, .up l⟩ (.fillPartly s k) ⟨dir', .up l⟩ := by
  simp only [Live.fillPartly] at hs
  split at hs
  · simp at hs
  rename_i hdead
  split at hs
  · rename_i idx sector todo data ts wr htodo hcall
    obtain rfl := Option.some.inj hs
    exact .fillPartly (v := (data, ts, wr)) hdead htodo hcall
  · simp at hs

/-- Commands come to the tasks from `deserialize_rc` and from the self channel only, so these steps run no
    handler. -/
theorem task_stepped {te : TaskEvent} (hnone : begins te = none) (hs : l.task p te = some l') :
    ∃ tasks effs, taskStep (l.config p) l.tasks te = some (tasks, effs) ∧ l' = { l with tasks } := by
  simp only [Live.task, hnone] at hs
  obtain ⟨⟨tasks, effs⟩, htask, rfl⟩ := Option.map_eq_some_iff.mp hs
  exact ⟨tasks, effs, htask, rfl⟩

theorem live_stepped (hs : l.step p key e = some l') : Stepped p key ⟨dir, .up l⟩ e ⟨dir, .up l'⟩ := by
  cases e with
  | task te =>
    simp only [Live.step] at hs
    split at hs
    · rename_i hunfed
      cases hb : begins te with
      | none =>
        obtain ⟨tasks, effs, htask, rfl⟩ := task_stepped hb hs
        exact .task hunfed hb htask
      | some s =>
        simp only [Live.task, hb] at hs
        split at hs
        · rename_i hempty
          obtain ⟨⟨tasks, effs⟩, htask, rfl⟩ := Option.map_eq_some_iff.mp hs
          exact .work hb (List.isEmpty_iff.mp hempty) htask
        · simp at hs
    · simp at hs
  | read c stream =>
    simp only [Live.step] at hs
    split at hs
    · rename_i cmd hmacOk rest hread
      obtain ⟨tasks, effs, htask, rfl⟩ := task_stepped rfl hs
      exact .read hread htask
    · rename_i fault hread
      obtain ⟨tasks, effs, htask, rfl⟩ := task_stepped rfl hs
      exact .hangUp hread htask
  | selfMessage =>
    simp only [Live.step] at hs
    split at hs
    · simp at hs
    · rename_i cmd queue hqueue
      obtain ⟨l₁, hl₁, rfl⟩ := Option.map_eq_some_iff.mp hs
      obtain ⟨tasks, effs, htask, rfl⟩ := task_stepped rfl hl₁
      exact .selfMessage hqueue htask
  | perform s => exact perform_stepped hs
  | push s => exact push_stepped hs
  | client ev =>
    simp only [Live.step] at hs
    split at hs
    · rename_i hof
      obtain ⟨⟨client, o⟩, hstep, rfl⟩ := Option.map_eq_some_iff.mp hs
      exact .client hof hstep
    · simp at hs
  | _ => cases hs

/-- Every step is one of those listed. -/
theorem step_stepped {o : Unit} (hs : step p key w e = some (w', o)) : Stepped p key w e w' := by
  obtain ⟨dir, phase⟩ := w
  unfold step at hs
  split at hs
  · rename_i l s hphase
    obtain rfl : phase = .up l := hphase
    obtain ⟨⟨dir', l'⟩, hw, heq⟩ := Option.map_eq_some_iff.mp hs
    obtain ⟨rfl, -⟩ := Prod.mk.inj heq
    exact write_stepped hw
  · rename_i l s k hphase
    obtain rfl : phase = .up l := hphase
    obtain ⟨dir', hw, heq⟩ := Option.map_eq_some_iff.mp hs
    obtain ⟨rfl, -⟩ := Prod.mk.inj heq
    exact fillPartly_stepped hw
  · rename_i l hphase
    obtain rfl : phase = .up l := hphase
    obtain ⟨rfl, -⟩ := Prod.mk.inj (Option.some.inj hs)
    exact .crash (by simp)
  · rename_i l hphase _ _ _
    obtain rfl : phase = .up l := hphase
    obtain ⟨l', hl', heq⟩ := Option.map_eq_some_iff.mp hs
    obtain ⟨rfl, -⟩ := Prod.mk.inj heq
    exact live_stepped hl'
  · rename_i da remaining hphase
    obtain rfl : phase = .recovering da remaining := hphase
    obtain ⟨rfl, -⟩ := Prod.mk.inj (Option.some.inj hs)
    exact .crash (by simp)
  · rename_i da hphase
    obtain rfl : phase = .recovering da [] := hphase
    obtain ⟨rfl, -⟩ := Prod.mk.inj (Option.some.inj hs)
    exact .recovered
  · rename_i da n remaining hphase
    obtain rfl : phase = .recovering da (n :: remaining) := hphase
    split at hs
    · rename_i dir' da' hrec
      obtain ⟨rfl, -⟩ := Prod.mk.inj (Option.some.inj hs)
      exact .recover hrec
    · rename_i hrec
      obtain ⟨rfl, -⟩ := Prod.mk.inj (Option.some.inj hs)
      exact .recoverPanics hrec
  · rename_i listing hphase
    obtain rfl : phase = .down := hphase
    split at hs
    · rename_i hperm
      obtain ⟨rfl, -⟩ := Prod.mk.inj (Option.some.inj hs)
      exact .restart hperm
    · simp at hs
  · simp at hs

/-! ### Workers and permits -/

/-- The tasks of a process that is up are in order, and only workers have effects to carry out. -/
structure Manned (p : Config) (w : World) : Prop where
  tasks : ∀ l, w.phase = .up l → Process.Sound (l.config p) l.tasks.world
  todo : ∀ l, w.phase = .up l → ∀ s, l.todo s ≠ [] → s < p.nSectors.toNat

theorem Manned.worker (h : Manned p ⟨dir, .up l⟩) (htodo : l.todo s ≠ []) :
    ∃ k, l.tasks.world.workers[s]? = some k := by
  have hlt := h.todo l rfl s htodo
  rw [← show l.tasks.world.workers.length = p.nSectors.toNat from (h.tasks l rfl).workers] at hlt
  exact ⟨_, List.getElem?_eq_getElem hlt⟩

theorem Manned.keeps (h : Manned p ⟨dir, .up l⟩)
    (htasks : Process.Sound (l'.config p) l'.tasks.world)
    (htodo : ∀ s, l'.todo s ≠ [] → l.todo s ≠ [] ∨ s < p.nSectors.toNat) : Manned p ⟨dir', .up l'⟩ := by
  refine ⟨fun l₁ hl => ?_, fun l₁ hl s hs => ?_⟩
  · obtain rfl := Phase.up.inj hl
    exact htasks
  · obtain rfl := Phase.up.inj hl
    exact (htodo s hs).elim (h.todo l rfl s) id

/-- Worker `s` is done with an effect. -/
theorem todo_done {eff : Effect Ticket} {todo : List (Effect Ticket)} (htodo : l.todo s = eff :: todo) (i : ℕ)
    (hi : Function.update l.todo s todo i ≠ []) : l.todo i ≠ [] := by
  rcases eq_or_ne i s with rfl | hne
  · simp [htodo]
  · rwa [Function.update_of_ne hne] at hi

theorem manned_boot (p : Config) (m : SectorsManagerState) : Manned p ⟨dir, .up (boot p m)⟩ := by
  refine ⟨fun l hl => ?_, fun l hl s hs => ?_⟩
  · obtain rfl := Phase.up.inj hl
    exact Process.sound_init _
  · obtain rfl := Phase.up.inj hl
    exact absurd rfl hs

/-- A handler is run by a worker. -/
theorem begins_worker {te : TaskEvent} {t t' : Tasks} {effs : List (Effect Ticket)} {q : Config}
    (hbegins : begins te = some s) (hs : taskStep q t te = some (t', effs)) :
    ∃ k, t.world.workers[s]? = some k := by
  cases Process.taskStep_stepped hs with
  | @runs e world effs failed hrun =>
    cases e with
    | work i uuid order =>
      obtain rfl : i = s := Option.some.inj hbegins
      simp only [Process.step] at hrun
      split at hrun
      · rename_i hk
        exact ⟨_, hk⟩
      · simp at hrun
    | _ => cases hbegins
  | @closes e c k hc hheld hconn =>
    cases e with
    | work => cases hconn
    | _ => cases hbegins
  | handlerPanics hk =>
    obtain rfl := Option.some.inj hbegins
    exact ⟨_, hk⟩
  | _ => cases hbegins

theorem manned_step (h : Manned p w) (hs : Stepped p key w e w') : Manned p w' := by
  cases hs with
  | @task dir l _ _ _ _ _ htask =>
    exact h.keeps (Process.sound_taskStep (h.tasks l rfl) (Process.taskStep_stepped htask)) fun _ => Or.inl
  | @work dir l te s _ _ hbegins _ htask =>
    refine h.keeps (Process.sound_taskStep (h.tasks l rfl) (Process.taskStep_stepped htask)) fun i hi => ?_
    rcases eq_or_ne i s with rfl | hne
    · obtain ⟨k, hk⟩ := begins_worker hbegins htask
      exact Or.inr ((h.tasks l rfl).workers ▸ (List.getElem?_eq_some_iff.mp hk).1)
    · exact Or.inl (by simpa [Function.update_of_ne hne] using hi)
  | @read dir l _ _ _ _ _ _ _ _ htask =>
    exact h.keeps (Process.sound_taskStep (h.tasks l rfl) (Process.taskStep_stepped htask)) fun _ => Or.inl
  | @hangUp dir l _ _ _ _ _ _ htask =>
    exact h.keeps (Process.sound_taskStep (h.tasks l rfl) (Process.taskStep_stepped htask)) fun _ => Or.inl
  | @selfMessage dir l _ _ _ _ _ htask =>
    exact h.keeps (Process.sound_taskStep (h.tasks l rfl) (Process.taskStep_stepped htask)) fun _ => Or.inl
  | @begins dir l => exact h.keeps (h.tasks l rfl) fun _ => Or.inl
  | @written dir l _ _ _ _ _ _ htodo =>
    exact h.keeps (h.tasks l rfl) fun i hi => Or.inl (todo_done htodo i hi)
  | @calls dir l => exact h.keeps (h.tasks l rfl) fun _ => Or.inl
  | @returns dir l _ _ _ _ _ _ htodo =>
    exact h.keeps (h.tasks l rfl) fun i hi => Or.inl (todo_done htodo i hi)
  | @callback dir l _ _ _ _ _ htodo =>
    exact h.keeps (h.tasks l rfl) fun i hi => Or.inl (todo_done htodo i hi)
  | @push dir l => exact h.keeps (h.tasks l rfl) fun _ => Or.inl
  | @client dir l => exact h.keeps (h.tasks l rfl) fun _ => Or.inl
  | @advance dir l => exact h.keeps (h.tasks l rfl) fun _ => Or.inl
  | @fillPartly dir l => exact h.keeps (h.tasks l rfl) fun _ => Or.inl
  | @panics dir l e s k _ _ hk =>
    refine h.keeps ((h.tasks l rfl).dies hk (fun x hx => hx) fun _ => rfl) fun i hi => ?_
    rcases eq_or_ne i s with rfl | hne
    · simp at hi
    · exact Or.inl (by simpa [Function.update_of_ne hne] using hi)
  | recovered => exact manned_boot p _
  | _ => exact ⟨by simp, by simp⟩

theorem manned {P : World → Event → Prop} {tr : NodeTrace} (hr : Run (step p key) P init tr w) :
    Manned p w :=
  hr.invariant (I := fun _ w => Manned p w) ⟨by simp [init], by simp [init]⟩
    fun _ _ _ h _ hs => manned_step h (step_stepped hs)

end AtomicDisk.Node
