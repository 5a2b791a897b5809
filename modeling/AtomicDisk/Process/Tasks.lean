import AtomicDisk.Process.Permits

/-! The tasks of a process when things go wrong. A task that panics is gone, and with it what it has
    captured: the callback in the register of a worker, or the one it runs, is dropped, and so is its
    permit. The channel of a worker that is gone is closed, so whoever forwards to it panics next:

        write_all fails ──▶ worker panics ──▶ connection that sends to it panics
        handler panics  ──┘               └─▶ handle_self_messages panics, for all sectors

    A connection that has failed may still take some bytes: those that fit in the buffer of its socket
    before the failure is noticed. -/

namespace AtomicDisk.Process
open Schemes Register Transfer

structure Tasks where
  world : World
  /-- the workers that have panicked -/
  dead : List ℕ
  /-- `handle_self_messages` is running -/
  selfHandler : Bool
  /-- the connections that have failed, each with the number of bytes it still takes -/
  failed : ℕ → Option ℕ

inductive TaskEvent where
  /-- a step of the process, which may be cut short -/
  | run (e : Event)
  /-- the connection fails, and takes `k` more bytes -/
  | fail (c k : ℕ)
  /-- the handler of the next command panics -/
  | panics (s : ℕ) (order : IterOrder UInt8 ReadEntry)

/-- `write_all` of `n` bytes returns `Ok`. -/
def Tasks.takes (w : Tasks) (c n : ℕ) : Bool := (w.failed c).all fun k => decide (n ≤ k)

/-- The connection has taken `n` bytes. -/
def Tasks.taken (w : Tasks) (c n : ℕ) : Tasks :=
  { w with failed := Function.update w.failed c ((w.failed c).map (· - n)) }

/-- The response that `success_callback` writes. -/
def responseBytes (p : Config) (t : Ticket) (opSuccess : OperationSuccess) : List UInt8 :=
  (getRidAndMsgType (.client t.cmd)).elim [] fun (rid, msgType) =>
    constructValidResponse p.hmac opSuccess p.hmacClientKey msgType rid

/-- The response of `construct_invalid_hmac_response`. -/
def hmacRefusal (p : Config) (t : Ticket) : List UInt8 :=
  (getRidAndMsgType (.client t.cmd)).elim [] fun (rid, msgType) =>
    constructInvalidHmacResponse p.hmac p.hmacClientKey msgType rid

/-- The response of `construct_invalid_sector_index_response`. -/
def sectorRefusal (p : Config) (t : Ticket) : List UInt8 :=
  (getRidAndMsgType (.client t.cmd)).elim [] fun (rid, msgType) =>
    constructInvalidSectorIndexResponse p.hmac p.hmacClientKey msgType rid

/-- The permits that are dropped with a worker. -/
def Worker.permits (k : Worker) : ℕ := k.register.callback.isSome.toNat + k.running.isSome.toNat

/-- Worker `s` panics. Nobody looks at its register any more, and a new one stands in its place. What is in
    its channel stays there. -/
def Tasks.dies (p : Config) (w : Tasks) (s : ℕ) (k : Worker) : Tasks :=
  { w with
    dead := s :: w.dead
    world := { w.world with
      workers := w.world.workers.set s
        ⟨k.queue, buildAtomicRegister p.selfIdent (UInt64.ofNat s) p.processesCount (p.sectors s), none⟩
      guards := w.world.guards.modify s (· + k.permits) } }

/-- The task of a connection panics, or ends. -/
def Tasks.closes (w : Tasks) (c : ℕ) : Tasks :=
  { w with world := { w.world with conns := w.world.conns.set c .closed } }

/-- A step of the process that nothing cuts short. -/
def Tasks.runs (p : Config) (w : Tasks) (e : Event) : Option (Tasks × List (Effect Ticket)) :=
  (step p w.world e).map fun (world, effs) => ({ w with world }, effs)

/-- A connection writes the response that a command is refused. -/
def Tasks.replies (p : Config) (w : Tasks) (c : ℕ) (bytes : List UInt8) :
    Option (Tasks × List (Effect Ticket)) :=
  if w.takes c bytes.length = true then (w.taken c bytes.length).runs p (.reply c)
  else some (w.closes c, [])

/-- One step of the tasks. -/
def taskStep (p : Config) (w : Tasks) : TaskEvent → Option (Tasks × List (Effect Ticket))
  | .fail c k =>
    if w.failed c = none then some ({ w with failed := Function.update w.failed c (some k) }, []) else none
  | .panics s order =>
    match w.world.workers[s]? with
    | some ⟨(.system cmd, _) :: queue, register, none⟩ =>
      if s ∉ w.dead ∧ systemCommand p.overflowChecks order register cmd = none then
        some (w.dies p s ⟨queue, register, none⟩, [])
      else none
    | _ => none
  | .run (.receive c (.system cmd) true) =>
    if cmd.header.sectorIdx.toNat ∈ w.dead then
      match w.world.conns[c]? with
      | some .reading => some (w.closes c, [])
      | _ => none
    else w.runs p (.receive c (.system cmd) true)
  | .run (.send c) =>
    match w.world.conns[c]? with
    | some (.sending t) =>
      if t.sector ∈ w.dead then
        -- the command is dropped, with its callback and permit
        some ({ w with world := { w.world with
          conns := w.world.conns.set c .closed
          guards := w.world.guards.modify t.sector (· + 1) } }, [])
      else w.runs p (.send c)
    | _ => none
  | .run (.selfMessage cmd) =>
    if w.selfHandler = true then
      if cmd.header.sectorIdx.toNat ∈ w.dead ∨ w.world.workers.length ≤ cmd.header.sectorIdx.toNat then
        some ({ w with selfHandler := false }, [])
      else w.runs p (.selfMessage cmd)
    else none
  | .run (.work s uuid order) => if s ∈ w.dead then none else w.runs p (.work s uuid order)
  | .run (.respond s) =>
    match w.world.workers[s]? with
    | some ⟨queue, register, some (.respond t opSuccess)⟩ =>
      let n := (responseBytes p t opSuccess).length
      if w.takes t.conn n = true then (w.taken t.conn n).runs p (.respond s)
      else some (w.dies p s ⟨queue, register, some (.respond t opSuccess)⟩, [])
    | _ => none
  | .run (.reply c) =>
    match w.world.conns[c]? with
    | some (.replyingHmac t) => w.replies p c (hmacRefusal p t)
    | some (.replyingSector t) => w.replies p c (sectorRefusal p t)
    | _ => none
  | .run e => w.runs p e

def initTasks (p : Config) : Tasks := ⟨init p, [], true, fun _ => none⟩

abbrev TaskTrace := List (Entry Tasks TaskEvent (List (Effect Ticket)))

/-- Runs of the tasks, with their traces. -/
abbrev TasksRun (p : Config) (tr : TaskTrace) (w : Tasks) : Prop :=
  Run (taskStep p) (fun _ _ => True) (initTasks p) tr w

theorem getRidAndMsgType_client (cmd : ClientRegisterCommand) :
    ∃ x, getRidAndMsgType (.client cmd) = some x := by
  obtain ⟨header, _ | data⟩ := cmd <;> exact ⟨_, rfl⟩

/-! ### What a step can do -/

variable {p : Config} {w w' : Tasks} {e : TaskEvent} {effs : List (Effect Ticket)} {s c : ℕ}
  {k : Worker} {t : Ticket}

/-- The connection whose task makes the step. -/
def TaskEvent.conn : TaskEvent → Option ℕ
  | .run (.receive c _ _) | .run (.hangUp c) | .run (.acquire c) | .run (.send c) | .run (.reply c) =>
    some c
  | _ => none

/-- The steps: event, state after it, effects. -/
inductive TaskStepped (p : Config) (w : Tasks) : TaskEvent → Tasks → List (Effect Ticket) → Prop
  | runs {e : Event} {world : World} {effs : List (Effect Ticket)} {failed : ℕ → Option ℕ} :
      step p w.world e = some (world, effs) → (∀ s uuid order, e = .work s uuid order → s ∉ w.dead) →
      (∀ c, w.failed c = none → failed c = none) →
      TaskStepped p w (.run e) { w with world, failed } effs
  | fails {c k : ℕ} : TaskStepped p w (.fail c k) { w with failed := Function.update w.failed c (some k) } []
  | closes {e : Event} {c : ℕ} {k : Conn} : w.world.conns[c]? = some k → (∀ q, k.held q = 0) →
      (TaskEvent.run e).conn = some c → TaskStepped p w (.run e) (w.closes c) []
  | abandons {c : ℕ} {t : Ticket} : w.world.conns[c]? = some (.sending t) → t.sector ∈ w.dead →
      TaskStepped p w (.run (.send c)) { w with world := { w.world with
        conns := w.world.conns.set c .closed
        guards := w.world.guards.modify t.sector (· + 1) } } []
  | selfHandlerPanics {cmd : SystemRegisterCommand} :
      TaskStepped p w (.run (.selfMessage cmd)) { w with selfHandler := false } []
  | handlerPanics {s : ℕ} {order : IterOrder UInt8 ReadEntry} {cmd : SystemRegisterCommand}
      {callback : Option Ticket} {queue : List (RegisterCommand × Option Ticket)}
      {r : AtomicRegisterState Ticket} :
      w.world.workers[s]? = some ⟨(.system cmd, callback) :: queue, r, none⟩ → s ∉ w.dead →
      TaskStepped p w (.panics s order) (w.dies p s ⟨queue, r, none⟩) []
  | callbackPanics {s : ℕ} {k : Worker} : w.world.workers[s]? = some k → k.running.isSome = true →
      TaskStepped p w (.run (.respond s)) (w.dies p s k) []

theorem Tasks.taken_none (w : Tasks) {c c' n : ℕ} (h : w.failed c' = none) : (w.taken c n).failed c' = none := by
  rcases eq_or_ne c' c with rfl | hne
  · simp [Tasks.taken, h]
  · simp [Tasks.taken, Function.update_of_ne hne, h]

theorem Tasks.runs_eq {e : Event} (h : w.runs p e = some (w', effs)) :
    ∃ world, step p w.world e = some (world, effs) ∧ w' = { w with world } := by
  obtain ⟨⟨world, effs'⟩, hs, heq⟩ := Option.map_eq_some_iff.mp h
  obtain ⟨rfl, rfl⟩ := Prod.mk.inj heq
  exact ⟨world, hs, rfl⟩

theorem runs_stepped {e : Event} (hwork : ∀ s uuid order, e = .work s uuid order → s ∉ w.dead)
    (h : w.runs p e = some (w', effs)) : TaskStepped p w (.run e) w' effs := by
  obtain ⟨world, hs, rfl⟩ := Tasks.runs_eq h
  exact .runs hs hwork fun _ hc => hc

theorem replies_stepped {bytes : List UInt8} {k : Conn} (hc : w.world.conns[c]? = some k)
    (hk : k.Replying t) (h : w.replies p c bytes = some (w', effs)) :
    TaskStepped p w (.run (.reply c)) w' effs := by
  rw [Tasks.replies] at h
  split at h
  · obtain ⟨world, hs, rfl⟩ := Tasks.runs_eq h
    exact .runs hs (by simp) fun c' hc' => w.taken_none hc'
  · obtain ⟨rfl, rfl⟩ := Prod.mk.inj (Option.some.inj h)
    exact .closes hc hk.held rfl

/-- Every step is one of those listed. -/
theorem taskStep_stepped (hs : taskStep p w e = some (w', effs)) : TaskStepped p w e w' effs := by
  cases e with
  | fail c k =>
    simp only [taskStep] at hs
    split at hs
    · obtain ⟨rfl, rfl⟩ := Prod.mk.inj (Option.some.inj hs)
      exact .fails
    · simp at hs
  | panics s order =>
    simp only [taskStep] at hs
    split at hs
    · rename_i cmd callback queue r hk
      split at hs
      · rename_i hpanics
        obtain ⟨rfl, rfl⟩ := Prod.mk.inj (Option.some.inj hs)
        exact .handlerPanics hk hpanics.1
      · simp at hs
    · simp at hs
  | run e =>
    cases e with
    | receive c cmd ok =>
      cases cmd with
      | client cmd => exact runs_stepped (by simp) hs
      | system cmd =>
        cases ok with
        | false => exact runs_stepped (by simp) hs
        | true =>
          simp only [taskStep] at hs
          split at hs
          · split at hs
            · rename_i hc
              obtain ⟨rfl, rfl⟩ := Prod.mk.inj (Option.some.inj hs)
              exact .closes hc (fun _ => rfl) rfl
            · simp at hs
          · exact runs_stepped (by simp) hs
    | send c =>
      simp only [taskStep] at hs
      split at hs
      · rename_i t hc
        split at hs
        · rename_i hdead
          obtain ⟨rfl, rfl⟩ := Prod.mk.inj (Option.some.inj hs)
          exact .abandons hc hdead
        · exact runs_stepped (by simp) hs
      · simp at hs
    | selfMessage cmd =>
      simp only [taskStep] at hs
      split at hs
      · split at hs
        · obtain ⟨rfl, rfl⟩ := Prod.mk.inj (Option.some.inj hs)
          exact .selfHandlerPanics
        · exact runs_stepped (by simp) hs
      · simp at hs
    | work s uuid order =>
      simp only [taskStep] at hs
      split at hs
      · simp at hs
      · rename_i hdead
        refine runs_stepped (fun s' uuid' order' heq => ?_) hs
        obtain ⟨rfl, -, -⟩ := Event.work.inj heq
        exact hdead
    | respond s =>
      simp only [taskStep] at hs
      split at hs
      · rename_i queue r t opSuccess hk
        split at hs
        · obtain ⟨world, hrun, rfl⟩ := Tasks.runs_eq hs
          exact .runs hrun (by simp) fun c hc => w.taken_none hc
        · obtain ⟨rfl, rfl⟩ := Prod.mk.inj (Option.some.inj hs)
          exact .callbackPanics hk rfl
      · simp at hs
    | reply c =>
      simp only [taskStep] at hs
      split at hs
      · rename_i t hc
        exact replies_stepped hc (Or.inl rfl) hs
      · rename_i t hc
        exact replies_stepped hc (Or.inr rfl) hs
      · simp at hs
    | accept => exact runs_stepped (by simp) hs
    | hangUp c => exact runs_stepped (by simp) hs
    | acquire c => exact runs_stepped (by simp) hs
    | release s => exact runs_stepped (by simp) hs

/-- A worker that has panicked is gone for good, and handles nothing any more. -/
theorem dead_taskStep (hdead : s ∈ w.dead) (hs : TaskStepped p w e w' effs) :
    s ∈ w'.dead ∧ ∀ uuid order, e ≠ .run (.work s uuid order) := by
  cases hs with
  | @runs e world effs failed hs hwork =>
    refine ⟨hdead, ?_⟩
    rintro uuid order ⟨⟩
    exact hwork s uuid order rfl hdead
  | @closes e c k hc _ hconn =>
    refine ⟨hdead, ?_⟩
    rintro uuid order ⟨⟩
    cases hconn
  | fails | abandons | selfHandlerPanics => exact ⟨hdead, by simp⟩
  | handlerPanics | callbackPanics => exact ⟨List.mem_cons_of_mem _ hdead, by simp⟩

/-! ### The permits -/

/-- A permit goes from a command that could not be sent back to the semaphore. -/
theorem Sound.abandon {w : World} (h : Sound p w) (hc : w.conns[c]? = some (.sending t)) : Sound p
    { w with conns := w.conns.set c .closed, guards := w.guards.modify t.sector (· + 1) } := by
  refine h.giveBack rfl rfl (fun i => ?_) h.placed
  have hset := weigh_set (Conn.held (forSector i)) hc .closed
  simp only [Conn.held, forSector_toNat] at hset
  simp only [World.held]
  omega

/-- The tickets that a worker drops are those of its own sector. -/
theorem Placed.permits (h : Placed s k) (i : ℕ) : k.held (forSector i) =
    carried (forSector i) k.queue + if s = i then k.permits else 0 := by
  have hcb : (k.register.callback.any (forSector i)).toNat =
      if s = i then k.register.callback.isSome.toNat else 0 := by
    cases hcb : k.register.callback with
    | none => simp
    | some t => simp [forSector_toNat, (h.callback t hcb).1]
  have hrun : (k.running.any fun x => forSector i x.ticket).toNat =
      if s = i then k.running.isSome.toNat else 0 := by
    cases hrun : k.running with
    | none => simp
    | some x => simp [forSector_toNat, h.running x hrun]
  rw [Worker.held, hcb, hrun, Worker.permits]
  split <;> omega

/-- The permits of a worker that panics go back to the semaphore. -/
theorem Sound.dies {queue : List (RegisterCommand × Option Ticket)} (h : Sound p w.world)
    (hk : w.world.workers[s]? = some k) (hqueue : ∀ x ∈ queue, x ∈ k.queue)
    (hcarried : ∀ i, carried (forSector i) queue = carried (forSector i) k.queue) :
    Sound p (w.dies p s { k with queue }).world := by
  have hplaced := h.placed s k hk
  refine h.giveBack rfl (by simp [Tasks.dies]) (fun i => ?_) (forall_set h.placed
    ⟨fun x hx => hplaced.queue x (hqueue x hx), by simp [buildAtomicRegister, AtomicRegisterState.new],
      fun _ => ⟨rfl, rfl, rfl, rfl⟩, by simp⟩)
  have hset := weigh_set (Worker.held (forSector i)) hk
    ⟨queue, buildAtomicRegister p.selfIdent (UInt64.ofNat s) p.processesCount (p.sectors s), none⟩
  have hnew : Worker.held (forSector i) ⟨queue, buildAtomicRegister p.selfIdent (UInt64.ofNat s)
      p.processesCount (p.sectors s), none⟩ = carried (forSector i) k.queue := by
    rw [← hcarried]
    rfl
  rw [hplaced.permits i, hnew] at hset
  simp only [World.held, Tasks.dies, Worker.permits] at hset ⊢
  omega

theorem sound_taskStep (h : Sound p w.world) (hs : TaskStepped p w e w' effs) : Sound p w'.world := by
  cases hs with
  | runs hs => exact sound_step h (step_stepped hs)
  | fails => exact h
  | @closes e c k hc hheld =>
    refine h.keep rfl rfl (fun q => ?_) h.placed
    rw [World.held, Tasks.closes, weigh_set_same (Conn.held q) hc .closed (hheld q).symm, World.held]
  | abandons hc => exact h.abandon hc
  | selfHandlerPanics => exact h
  | @handlerPanics s _ cmd callback queue r hk =>
    obtain rfl : callback = none := (h.placed s _ hk).system_callback
    exact h.dies hk (fun x hx => List.mem_cons_of_mem _ hx) (by simp)
  | callbackPanics hk => exact h.dies hk (fun x hx => hx) (fun _ => rfl)

theorem tasks_sound {tr : TaskTrace} (hr : TasksRun p tr w) : Sound p w.world :=
  hr.invariant (I := fun _ w => Sound p w.world) (sound_init p)
    fun _ _ _ h _ hs => sound_taskStep h (taskStep_stepped hs)

end AtomicDisk.Process
