import AtomicDisk.Process.Streams
import AtomicDisk.Register.Callbacks

/-! What is seen of a process that does not look at badly tagged messages: the `view` of a state is without
    the numbers of the tickets, without what has been written, and has a connection that is about to
    refuse a badly tagged command as one that is reading.

        state ────step────▶ state'
          │ view              │ view          the view after a step depends on the view before it
          ▼                   ▼
        view  ────step────▶ view'

    So two states with the same view take the same steps to states with the same view. -/

namespace AtomicDisk.Process
open Schemes Register Transfer

/-! ### The view -/

def Ticket.view (t : Ticket) : Ticket := { t with number := 0 }

def Conn.view : Conn → Conn
  | .reading => .reading
  | .acquiring t => .acquiring t.view
  | .sending t => .sending t.view
  | .replyingHmac _ => .reading
  | .replyingSector t => .replyingSector t.view
  | .closed => .closed

def Running.view : Running → Running
  | .respond t opSuccess => .respond t.view opSuccess
  | .release t => .release t.view

/-- An item of a queue, with the ticket as it is seen. -/
def viewItem (x : RegisterCommand × Option Ticket) : RegisterCommand × Option Ticket :=
  (x.1, x.2.map Ticket.view)

def Worker.view (k : Worker) : Worker :=
  ⟨k.queue.map viewItem, k.register.mapCallback Ticket.view, k.running.map Running.view⟩

def World.view (w : World) : World where
  conns := w.conns.map Conn.view
  guards := w.guards
  workers := w.workers.map Worker.view
  written := []
  received := 0

def Tasks.view (w : Tasks) : Tasks := { w with world := w.world.view }

@[simp] theorem Conn.view_view (k : Conn) : k.view.view = k.view := by
  cases k <;> rfl

@[simp] theorem Running.view_view (x : Running) : x.view.view = x.view := by
  cases x <;> rfl

@[simp] theorem viewItem_view (x : RegisterCommand × Option Ticket) : viewItem (viewItem x) = viewItem x := by
  obtain ⟨cmd, _ | t⟩ := x <;> rfl

@[simp] theorem Worker.view_view (k : Worker) : k.view.view = k.view := by
  obtain ⟨queue, r, running⟩ := k
  have hregister : (r.mapCallback Ticket.view).mapCallback Ticket.view = r.mapCallback Ticket.view := by
    cases hcb : r.callback <;> simp [AtomicRegisterState.mapCallback, hcb, Ticket.view]
  have hrunning : (running.map Running.view).map Running.view = running.map Running.view := by
    cases running <;> simp
  simp only [Worker.view, hregister, hrunning, List.map_map]
  congr 1
  exact List.map_congr_left fun x _ => viewItem_view x

theorem map_view_conns (l : List Conn) : (l.map Conn.view).map Conn.view = l.map Conn.view := by
  rw [List.map_map]
  exact List.map_congr_left fun k _ => k.view_view

theorem map_view_workers (l : List Worker) : (l.map Worker.view).map Worker.view = l.map Worker.view := by
  rw [List.map_map]
  exact List.map_congr_left fun k _ => k.view_view

@[simp] theorem Worker.view_push (k : Worker) (x : RegisterCommand × Option Ticket) :
    (k.push x).view = k.view.push (viewItem x) := by
  simp [Worker.view, Worker.push]

/-- Two states are seen as the same when their parts are. -/
theorem World.view_ext {w w' : World} (hconns : w.conns.map Conn.view = w'.conns.map Conn.view)
    (hguards : w.guards = w'.guards) (hworkers : w.workers.map Worker.view = w'.workers.map Worker.view) :
    w.view = w'.view := by
  rw [World.view, World.view, hconns, hguards, hworkers]

variable {p : Config} {key : List UInt8} {effs : List (Effect Ticket)} {c s : ℕ} {t : Ticket}

theorem invoked_map (effs : List (Effect Ticket)) :
    invoked (effs.map (Effect.mapCallback Ticket.view)) = (invoked effs).map Running.view := by
  induction effs with
  | nil => rfl
  | cons eff effs ih =>
    cases eff with
    | callback t op => rfl
    | _ => exact ih

/-! ### Steps of what is seen -/

section steps

variable {w : World} {e : Event} {k : Conn} {m : Worker}

/-- What a step does to what is seen depends on what is seen. -/
def SeesStep (p : Config) (w : World) (e : Event) : Prop :=
  (step p w.view e).map (fun r => r.1.view) = (step p w e).map fun r => r.1.view

theorem view_conn (hc : w.conns[c]? = some k) : w.view.conns[c]? = some k.view := by
  simp [World.view, hc]

theorem view_worker (hk : w.workers[s]? = some m) : w.view.workers[s]? = some m.view := by
  simp [World.view, hk]

theorem view_conn_none (hc : w.conns[c]? = none) : w.view.conns[c]? = none := by
  simp [World.view] at hc ⊢
  exact hc

theorem view_worker_none (hk : w.workers[s]? = none) : w.view.workers[s]? = none := by
  simp [World.view] at hk ⊢
  exact hk

theorem view_set_conn (w : World) (c : ℕ) (k : Conn) :
    (w.view.conns.set c k.view).map Conn.view = (w.conns.set c k).map Conn.view := by
  rw [World.view, ← List.map_set, map_view_conns]

theorem view_set_worker (w : World) (s : ℕ) (m : Worker) :
    (w.view.workers.set s m.view).map Worker.view = (w.workers.set s m).map Worker.view := by
  rw [World.view, ← List.map_set, map_view_workers]

theorem view_conns (w : World) : w.view.conns.map Conn.view = w.conns.map Conn.view := map_view_conns _

theorem view_workers (w : World) : w.view.workers.map Worker.view = w.workers.map Worker.view :=
  map_view_workers _

theorem seesStep_accept : SeesStep p w .accept := by
  simp only [SeesStep, step, Option.map_some]
  congr 1
  apply World.view_ext
  · simp only [List.map_append, view_conns]
  · rfl
  · exact view_workers w

theorem seesStep_hangUp (hno : ∀ t, w.conns[c]? ≠ some (.replyingHmac t)) : SeesStep p w (.hangUp c) := by
  cases hc : w.conns[c]? with
  | none => simp only [SeesStep, step, hc, view_conn_none hc, Option.map_none]
  | some k =>
    have hview := view_conn hc
    cases k with
    | reading =>
      simp only [SeesStep, step, hc, hview, Conn.view, Option.map_some]
      exact congrArg some (World.view_ext (view_set_conn w c .closed) rfl (view_workers w))
    | replyingHmac t => exact absurd hc (hno t)
    | _ => simp only [SeesStep, step, hc, hview, Conn.view, Option.map_none]

theorem seesStep_acquire (c : ℕ) : SeesStep p w (.acquire c) := by
  cases hc : w.conns[c]? with
  | none => simp only [SeesStep, step, hc, view_conn_none hc, Option.map_none]
  | some k =>
    have hview := view_conn hc
    cases k with
    | acquiring t =>
      have hsector : w.view.guards[t.view.sector]? = w.guards[t.sector]? := rfl
      simp only [SeesStep, step, hc, hview, Conn.view, hsector]
      split
      · exact congrArg some (World.view_ext (view_set_conn w c (.sending t)) rfl (view_workers w))
      · rfl
    | _ => simp only [SeesStep, step, hc, hview, Conn.view, Option.map_none]

theorem seesStep_send (c : ℕ) : SeesStep p w (.send c) := by
  cases hc : w.conns[c]? with
  | none => simp only [SeesStep, step, hc, view_conn_none hc, Option.map_none]
  | some k =>
    have hview := view_conn hc
    cases k with
    | sending t =>
      have hsector : t.view.sector = t.sector := rfl
      cases hk : w.workers[t.sector]? with
      | none => simp only [SeesStep, step, hc, hview, Conn.view, hsector, hk, view_worker_none hk, Option.map_none]
      | some m =>
        simp only [SeesStep, step, hc, hview, Conn.view, hsector, hk, view_worker hk, Option.map_some]
        refine congrArg some (World.view_ext (view_set_conn w c .reading) rfl ?_)
        have hpush : m.view.push (.client t.view.cmd, some t.view) =
            (m.push (.client t.cmd, some t)).view := by
          rw [Worker.view_push]
          rfl
        simp only [hpush]
        exact view_set_worker w t.sector _
    | _ => simp only [SeesStep, step, hc, hview, Conn.view, Option.map_none]

theorem seesStep_reply (hno : ∀ t, w.conns[c]? ≠ some (.replyingHmac t)) : SeesStep p w (.reply c) := by
  cases hc : w.conns[c]? with
  | none => simp only [SeesStep, step, hc, view_conn_none hc, Option.map_none]
  | some k =>
    have hview := view_conn hc
    cases k with
    | replyingSector t =>
      have hcmd : t.view.cmd = t.cmd := rfl
      obtain ⟨x, hmsg⟩ := getRidAndMsgType_client t.cmd
      simp only [SeesStep, step, hc, hview, Conn.view, hcmd, hmsg, Option.map_some]
      exact congrArg some (World.view_ext (view_set_conn w c .reading) rfl (view_workers w))
    | replyingHmac t => exact absurd hc (hno t)
    | _ => simp only [SeesStep, step, hc, hview, Conn.view, Option.map_none]

theorem enqueue_view (w : World) (cmd : SystemRegisterCommand) :
    (w.view.enqueue cmd).map World.view = (w.enqueue cmd).map World.view := by
  cases hk : w.workers[cmd.header.sectorIdx.toNat]? with
  | none => simp only [World.enqueue, hk, view_worker_none hk, Option.map_none]
  | some m =>
    simp only [World.enqueue, hk, view_worker hk, Option.map_some]
    refine congrArg some (World.view_ext (view_conns w) rfl ?_)
    have hpush : m.view.push (.system cmd, none) = (m.push (.system cmd, none)).view := by
      rw [Worker.view_push]
      rfl
    simp only [hpush]
    exact view_set_worker w _ _

theorem seesStep_selfMessage (cmd : SystemRegisterCommand) : SeesStep p w (.selfMessage cmd) := by
  simp only [SeesStep, step, Option.map_map]
  exact enqueue_view w cmd

theorem receive_view (w : World) (c : ℕ) (cmd : RegisterCommand) (ok : Bool) :
    (w.view.receive p c cmd ok).view = (w.receive p c cmd ok).view := by
  cases cmd with
  | client cmd =>
    cases ok with
    | true =>
      simp only [World.receive]
      split
      · exact World.view_ext (view_set_conn w c (.acquiring ⟨_, c, cmd⟩)) rfl (view_workers w)
      · exact World.view_ext (view_set_conn w c (.replyingSector ⟨_, c, cmd⟩)) rfl (view_workers w)
    | false =>
      refine World.view_ext ?_ rfl (view_workers w)
      simp only [World.receive, List.map_set, view_conns]
      rfl
  | system cmd =>
    cases ok with
    | true =>
      have hq := enqueue_view w cmd
      simp only [World.receive]
      cases hw : w.enqueue cmd with
      | none =>
        rw [hw] at hq
        rw [Option.map_eq_none_iff.mp hq]
        exact World.view_ext (view_set_conn w c .closed) rfl (view_workers w)
      | some w₁ =>
        rw [hw] at hq
        obtain ⟨w₂, hw₂, heq⟩ := Option.map_eq_some_iff.mp hq
        rw [hw₂]
        exact heq
    | false => exact World.view_ext (view_conns w) rfl (view_workers w)

theorem seesStep_receive (cmd : RegisterCommand) (ok : Bool)
    (hno : ∀ t, w.conns[c]? ≠ some (.replyingHmac t)) : SeesStep p w (.receive c cmd ok) := by
  cases hc : w.conns[c]? with
  | none => simp only [SeesStep, step, hc, view_conn_none hc, Option.map_none]
  | some k =>
    have hview := view_conn hc
    cases k with
    | reading =>
      simp only [SeesStep, step, hc, hview, Conn.view, Option.map_some]
      exact congrArg some (receive_view w c cmd ok)
    | replyingHmac t => exact absurd hc (hno t)
    | _ => simp only [SeesStep, step, hc, hview, Conn.view, Option.map_none]

theorem seesStep_respond (s : ℕ) : SeesStep p w (.respond s) := by
  cases hk : w.workers[s]? with
  | none => simp only [SeesStep, step, hk, view_worker_none hk, Option.map_none]
  | some m =>
    have hview := view_worker hk
    obtain ⟨queue, r, _ | t | t⟩ := m
    · simp only [SeesStep, step, hk, hview, Worker.view, Option.map_none]
    · rename_i op
      have hcmd : t.view.cmd = t.cmd := rfl
      obtain ⟨x, hmsg⟩ := getRidAndMsgType_client t.cmd
      simp only [SeesStep, step, hk, hview, Worker.view, Option.map_some, Running.view, hcmd, hmsg]
      exact congrArg some (World.view_ext (view_conns w) rfl
        (view_set_worker w s ⟨queue, r, some (.release t)⟩))
    · simp only [SeesStep, step, hk, hview, Worker.view, Option.map_some, Running.view, Option.map_none]

theorem seesStep_release (s : ℕ) : SeesStep p w (.release s) := by
  cases hk : w.workers[s]? with
  | none => simp only [SeesStep, step, hk, view_worker_none hk, Option.map_none]
  | some m =>
    have hview := view_worker hk
    obtain ⟨queue, r, _ | t | t⟩ := m
    · simp only [SeesStep, step, hk, hview, Worker.view, Option.map_none]
    · simp only [SeesStep, step, hk, hview, Worker.view, Option.map_some, Running.view, Option.map_none]
    · simp only [SeesStep, step, hk, hview, Worker.view, Option.map_some, Running.view]
      exact congrArg some (World.view_ext (view_conns w) rfl (view_set_worker w s ⟨queue, r, none⟩))

/-- A worker that has run a handler. -/
theorem view_handled (w : World) (s : ℕ) (queue : List (RegisterCommand × Option Ticket))
    (x : AtomicRegisterState Ticket × List (Effect Ticket)) :
    World.view { w.view with workers := w.view.workers.set s ⟨queue.map viewItem,
        (mapped Ticket.view x).1, invoked (mapped Ticket.view x).2⟩ } =
      World.view { w with workers := w.workers.set s ⟨queue, x.1, invoked x.2⟩ } := by
  have hworker : (⟨queue.map viewItem, (mapped Ticket.view x).1, invoked (mapped Ticket.view x).2⟩ : Worker) =
      (⟨queue, x.1, invoked x.2⟩ : Worker).view := by
    simp only [mapped, Worker.view, invoked_map]
  rw [hworker]
  exact World.view_ext (view_conns w) rfl (view_set_worker w s _)

theorem seesStep_work (s : ℕ) (uuid : Uuid) (order : IterOrder UInt8 ReadEntry) :
    SeesStep p w (.work s uuid order) := by
  cases hk : w.workers[s]? with
  | none => simp only [SeesStep, step, hk, view_worker_none hk, Option.map_none]
  | some m =>
    have hview := view_worker hk
    obtain ⟨_ | ⟨⟨cmd, callback⟩, queue⟩, r, _ | x⟩ := m
    · simp only [SeesStep, step, hk, hview, Worker.view, List.map_nil, Option.map_none]
    · simp only [SeesStep, step, hk, hview, Worker.view, List.map_nil, Option.map_none]
    · cases cmd with
      | client cmd =>
        cases callback with
        | none => simp [SeesStep, step, hk, hview, Worker.view, viewItem]
        | some t =>
          simp only [SeesStep, step, hk, hview, Worker.view, viewItem, List.map_cons, Option.map_some,
            Option.map_none, clientCommand_map]
          exact congrArg some (view_handled w s queue (clientCommand r cmd t uuid))
      | system cmd =>
        simp only [SeesStep, step, hk, hview, Worker.view, viewItem, List.map_cons, Option.map_none,
          systemCommand_map]
        cases systemCommand p.overflowChecks order r cmd with
        | none => rfl
        | some x => exact congrArg some (view_handled w s queue x)
    · simp only [SeesStep, step, hk, hview, Worker.view, List.map_cons, Option.map_some, Option.map_none]

/-- The steps of a process depend on what is seen, but for those of a connection that refuses a badly
    tagged command. -/
theorem seesStep (e : Event)
    (hno : ∀ c, (TaskEvent.run e).conn = some c → ∀ t, w.conns[c]? ≠ some (.replyingHmac t)) :
    SeesStep p w e := by
  cases e with
  | accept => exact seesStep_accept
  | receive c cmd ok => exact seesStep_receive cmd ok (hno c rfl)
  | hangUp c => exact seesStep_hangUp (hno c rfl)
  | acquire c => exact seesStep_acquire c
  | send c => exact seesStep_send c
  | reply c => exact seesStep_reply (hno c rfl)
  | selfMessage cmd => exact seesStep_selfMessage cmd
  | work s uuid order => exact seesStep_work s uuid order
  | respond s => exact seesStep_respond s
  | release s => exact seesStep_release s

end steps

/-! ### Steps of the tasks -/

section tasks

variable {w w' : Tasks} {e : TaskEvent}

/-- What a step of the tasks does to what is seen depends on what is seen. -/
def SeesTask (p : Config) (w : Tasks) (e : TaskEvent) : Prop :=
  (taskStep p w.view e).map (fun r => r.1.view) = (taskStep p w e).map fun r => r.1.view

theorem runs_view {e : Event} (h : SeesStep p w.world e) :
    (w.view.runs p e).map (fun r => r.1.view) = (w.runs p e).map fun r => r.1.view := by
  have hmap := congrArg (Option.map fun world => ({ w with world } : Tasks)) h
  simp only [Option.map_map] at hmap
  simp only [Tasks.runs, Option.map_map]
  exact hmap

theorem Tasks.view_ext (hconns : w.world.conns.map Conn.view = w'.world.conns.map Conn.view)
    (hguards : w.world.guards = w'.world.guards)
    (hworkers : w.world.workers.map Worker.view = w'.world.workers.map Worker.view)
    (hdead : w.dead = w'.dead) (hself : w.selfHandler = w'.selfHandler) (hfailed : w.failed = w'.failed) :
    w.view = w'.view := by
  rw [Tasks.view, Tasks.view, World.view_ext hconns hguards hworkers, hdead, hself, hfailed]

theorem closes_view (w : Tasks) (c : ℕ) : (w.view.closes c).view = (w.closes c).view :=
  Tasks.view_ext (view_set_conn w.world c .closed) rfl (view_workers w.world) rfl rfl rfl

theorem dies_view (w : Tasks) (s : ℕ) (k : Worker) : (w.view.dies p s k.view).view = (w.dies p s k).view := by
  have hpermits : k.view.permits = k.permits := by
    simp [Worker.permits, Worker.view, AtomicRegisterState.mapCallback]
  refine Tasks.view_ext (view_conns w.world) ?_ ?_ rfl rfl rfl
  · simp only [Tasks.dies, hpermits]
    rfl
  · exact view_set_worker w.world s ⟨k.queue, buildAtomicRegister p.selfIdent (UInt64.ofNat s)
      p.processesCount (p.sectors s), none⟩

theorem seesTask_receive (cmd : RegisterCommand) (ok : Bool)
    (hno : ∀ t, w.world.conns[c]? ≠ some (.replyingHmac t)) : SeesTask p w (.run (.receive c cmd ok)) := by
  have hruns := runs_view (p := p) (seesStep_receive cmd ok hno)
  rcases cmd with cmd | cmd
  · exact hruns
  · cases ok with
    | false => exact hruns
    | true =>
      simp only [SeesTask, taskStep]
      have hdead : w.view.dead = w.dead := rfl
      rw [hdead]
      split
      · cases hc : w.world.conns[c]? with
        | none => simp only [Tasks.view, view_conn_none hc]
        | some k =>
          have hview : w.view.world.conns[c]? = some k.view := view_conn hc
          cases k with
          | reading =>
            simp only [hview, Conn.view, Option.map_some]
            exact congrArg some (closes_view w c)
          | replyingHmac t => exact absurd hc (hno t)
          | _ => simp only [hview, Conn.view]
      · exact hruns

theorem seesTask_send (c : ℕ) : SeesTask p w (.run (.send c)) := by
  have hruns := runs_view (p := p) (seesStep_send (w := w.world) c)
  cases hc : w.world.conns[c]? with
  | none => simp only [SeesTask, taskStep, Tasks.view, hc, view_conn_none hc]
  | some k =>
    have hview : w.view.world.conns[c]? = some k.view := view_conn hc
    cases k with
    | sending t =>
      have hdead : (t.view.sector ∈ w.view.dead) = (t.sector ∈ w.dead) := rfl
      simp only [SeesTask, taskStep, hc, hview, Conn.view]
      by_cases hsector : t.sector ∈ w.dead
      · rw [if_pos hsector, if_pos (hdead ▸ hsector)]
        exact congrArg some (Tasks.view_ext (view_set_conn w.world c .closed) rfl (view_workers w.world)
          rfl rfl rfl)
      · rw [if_neg hsector, if_neg (hdead ▸ hsector)]
        exact hruns
    | _ => simp only [SeesTask, taskStep, hc, hview, Conn.view]

theorem replies_view {bytes : List UInt8} (h : SeesStep p w.world (.reply c)) :
    (w.view.replies p c bytes).map (fun r => r.1.view) = (w.replies p c bytes).map fun r => r.1.view := by
  have htakes : w.view.takes c bytes.length = w.takes c bytes.length := rfl
  simp only [Tasks.replies, htakes]
  split
  · exact runs_view (w := w.taken c bytes.length) h
  · exact congrArg some (closes_view w c)

theorem seesTask_reply (hno : ∀ t, w.world.conns[c]? ≠ some (.replyingHmac t)) :
    SeesTask p w (.run (.reply c)) := by
  cases hc : w.world.conns[c]? with
  | none => simp only [SeesTask, taskStep, Tasks.view, hc, view_conn_none hc]
  | some k =>
    have hview : w.view.world.conns[c]? = some k.view := view_conn hc
    cases k with
    | replyingSector t =>
      simp only [SeesTask, taskStep, hc, hview, Conn.view]
      exact replies_view (seesStep_reply hno)
    | replyingHmac t => exact absurd hc (hno t)
    | _ => simp only [SeesTask, taskStep, hc, hview, Conn.view]

theorem seesTask_selfMessage (cmd : SystemRegisterCommand) : SeesTask p w (.run (.selfMessage cmd)) := by
  have hself : w.view.selfHandler = w.selfHandler := rfl
  have hdead : w.view.dead = w.dead := rfl
  have hlength : w.view.world.workers.length = w.world.workers.length := List.length_map _
  simp only [SeesTask, taskStep, hself, hdead, hlength]
  split
  · split
    · exact congrArg some (Tasks.view_ext (view_conns w.world) rfl (view_workers w.world) rfl rfl rfl)
    · exact runs_view (seesStep_selfMessage cmd)
  · rfl

theorem seesTask_work (s : ℕ) (uuid : Uuid) (order : IterOrder UInt8 ReadEntry) :
    SeesTask p w (.run (.work s uuid order)) := by
  have hdead : w.view.dead = w.dead := rfl
  simp only [SeesTask, taskStep, hdead]
  split
  · rfl
  · exact runs_view (seesStep_work s uuid order)

theorem seesTask_respond (s : ℕ) : SeesTask p w (.run (.respond s)) := by
  cases hk : w.world.workers[s]? with
  | none => simp only [SeesTask, taskStep, Tasks.view, hk, view_worker_none hk]
  | some m =>
    have hview : w.view.world.workers[s]? = some m.view := view_worker hk
    obtain ⟨queue, r, _ | t | t⟩ := m
    · simp only [SeesTask, taskStep, hk, hview, Worker.view, Option.map_none]
    · rename_i op
      have hbytes : responseBytes p t.view op = responseBytes p t op := rfl
      have hconn : t.view.conn = t.conn := rfl
      have htakes : ∀ n, w.view.takes t.conn n = w.takes t.conn n := fun _ => rfl
      simp only [SeesTask, taskStep, hk, hview, Worker.view, Option.map_some, Running.view, hbytes, hconn, htakes]
      split
      · exact runs_view (w := w.taken t.conn _) (seesStep_respond s)
      · exact congrArg some (dies_view w s ⟨queue, r, some (.respond t op)⟩)
    · simp only [SeesTask, taskStep, hk, hview, Worker.view, Option.map_some, Running.view]

theorem seesTask_panics (s : ℕ) (order : IterOrder UInt8 ReadEntry) : SeesTask p w (.panics s order) := by
  have hdead : w.view.dead = w.dead := rfl
  cases hk : w.world.workers[s]? with
  | none => simp only [SeesTask, taskStep, Tasks.view, hk, view_worker_none hk]
  | some m =>
    have hview : w.view.world.workers[s]? = some m.view := view_worker hk
    obtain ⟨_ | ⟨⟨cmd, callback⟩, queue⟩, r, _ | x⟩ := m
    · simp only [SeesTask, taskStep, hk, hview, Worker.view, List.map_nil, Option.map_none]
    · simp only [SeesTask, taskStep, hk, hview, Worker.view, List.map_nil, Option.map_none]
    · cases cmd with
      | client cmd =>
        simp only [SeesTask, taskStep, hk, hview, Worker.view, viewItem, List.map_cons, Option.map_none]
      | system cmd =>
        have hnone : (systemCommand p.overflowChecks order (r.mapCallback Ticket.view) cmd = none) =
            (systemCommand p.overflowChecks order r cmd = none) := by
          rw [systemCommand_map, Option.map_eq_none_iff]
        simp only [SeesTask, taskStep, hk, hview, Worker.view, viewItem, List.map_cons, Option.map_none, hdead,
          hnone]
        split
        · exact congrArg some (dies_view w s ⟨queue, r, none⟩)
        · rfl
    · cases cmd <;> simp only [SeesTask, taskStep, hk, hview, Worker.view, viewItem, List.map_cons, Option.map_some]

/-- The steps of the tasks depend on what is seen, but for those of a connection that refuses a badly
    tagged command. -/
theorem seesTask (e : TaskEvent)
    (hno : ∀ c, e.conn = some c → ∀ t, w.world.conns[c]? ≠ some (.replyingHmac t)) : SeesTask p w e := by
  cases e with
  | fail c k =>
    have hfailed : w.view.failed = w.failed := rfl
    simp only [SeesTask, taskStep, hfailed]
    split
    · exact congrArg some (Tasks.view_ext (view_conns w.world) rfl (view_workers w.world) rfl rfl rfl)
    · rfl
  | panics s order => exact seesTask_panics s order
  | run e =>
    cases e with
    | receive c cmd ok => exact seesTask_receive cmd ok (hno c rfl)
    | send c => exact seesTask_send c
    | reply c => exact seesTask_reply (hno c rfl)
    | selfMessage cmd => exact seesTask_selfMessage cmd
    | work s uuid order => exact seesTask_work s uuid order
    | respond s => exact seesTask_respond s
    | accept | hangUp c | acquire c | release s => exact runs_view (seesStep _ hno)

/-- Two states that are seen as the same take the same step, to states that are seen as the same. -/
theorem taskStep_alike {w₁ : Tasks} (hview : w.view = w'.view)
    (hno : ∀ c, e.conn = some c → ∀ t, w.world.conns[c]? ≠ some (.replyingHmac t))
    (hno' : ∀ c, e.conn = some c → ∀ t, w'.world.conns[c]? ≠ some (.replyingHmac t))
    (hs : taskStep p w e = some (w₁, effs)) :
    ∃ w₁' effs', taskStep p w' e = some (w₁', effs') ∧ w₁.view = w₁'.view := by
  have hsees : SeesTask p w e := seesTask e hno
  have hsees' : SeesTask p w' e := seesTask e hno'
  rw [SeesTask, hview, hs, Option.map_some, hsees'] at hsees
  obtain ⟨⟨w₁', effs'⟩, hs', heq⟩ := Option.map_eq_some_iff.mp hsees
  exact ⟨w₁', effs', hs', heq.symm⟩

end tasks

end AtomicDisk.Process
