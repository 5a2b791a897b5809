import AtomicDisk.Process.Tasks

/-! Client commands on their way to a worker. A command that a connection has accepted waits, at the connection
    or in a queue, until the worker of its sector begins with it, and it is in one place only; on the way it
    may be lost, when a task panics, but never doubled:

        receive ──taken──▶ acquiring ──▶ sending ──▶ queue ──begun──▶ register -/

namespace AtomicDisk.Process
open Schemes Register Transfer

/-- The commands at a connection that wait and meet `q`. -/
def Conn.waiting (q : Ticket → Bool) : Conn → ℕ
  | .acquiring t | .sending t => (q t).toNat
  | _ => 0

/-- The commands that no worker has begun with and that meet `q`. -/
def World.waiting (q : Ticket → Bool) (w : World) : ℕ :=
  weigh (Conn.waiting q) w.conns + weigh (fun k => carried q k.queue) w.workers

/-- The command that a step has accepted, from the state after it. -/
def taken (w' : World) : Event → Option Ticket
  | .receive c _ _ =>
    match w'.conns[c]? with
    | some (.acquiring t) => some t
    | _ => none
  | _ => none

/-- The client command that a worker begins with. -/
def begun (w : World) : Event → Option Ticket
  | .work s _ _ => w.workers[s]?.bind fun k =>
    match k.queue with
    | (.client _, t) :: _ => t
    | _ => none
  | _ => none

/-- What a step does to the commands that wait. -/
structure Moves (w w' : World) (taken begun : Option Ticket) : Prop where
  received : w.received ≤ w'.received
  fresh : ∀ t ∈ taken, t.number = w.received ∧ w'.received = w.received + 1
  waiting : ∀ q, w'.waiting q + (begun.any q).toNat ≤ w.waiting q + (taken.any q).toNat

variable {p : Config} {w w' : World} {e : Event} {effs : List (Effect Ticket)} {q q' : Ticket → Bool}
  {c s : ℕ} {t : Ticket} {k : Worker} {x : Conn}

@[simp] theorem carried_nil (q : Ticket → Bool) : carried q [] = 0 := rfl

theorem moves_of_le (hreceived : w.received ≤ w'.received) (h : ∀ q, w'.waiting q ≤ w.waiting q) :
    Moves w w' none none :=
  ⟨hreceived, by simp, fun q => by simpa using h q⟩

/-- A connection gives up what it has. -/
theorem waiting_conn (hc : w.conns[c]? = some x) (y : Conn) (hy : ∀ q, y.waiting q ≤ x.waiting q) (guards : List ℕ)
    (written : List Response) (n : ℕ) (q : Ticket → Bool) :
    World.waiting q ⟨w.conns.set c y, guards, w.workers, written, n⟩ ≤ w.waiting q := by
  have hset := weigh_set (Conn.waiting q) hc y
  have := hy q
  simp only [World.waiting]
  omega

/-- A worker has no more in its queue. -/
theorem waiting_worker (hs : w.workers[s]? = some k) (k' : Worker)
    (hk : ∀ q, carried q k'.queue ≤ carried q k.queue) (guards : List ℕ) (written : List Response)
    (q : Ticket → Bool) :
    World.waiting q ⟨w.conns, guards, w.workers.set s k', written, w.received⟩ ≤ w.waiting q := by
  have hset := weigh_set (fun k : Worker => carried q k.queue) hs k'
  have := hk q
  simp only [World.waiting]
  omega

/-- A step accepts a command, moves one on, or begins with one. -/
theorem step_moves (hs : step p w e = some (w', effs)) : Moves w w' (taken w' e) (begun w e) := by
  cases step_stepped hs with
  | accept =>
    refine moves_of_le le_rfl fun q => ?_
    simp [World.waiting, Conn.waiting]
  | @take c cmd hc =>
    rw [taken]
    simp only [getElem?_set_of hc]
    refine ⟨Nat.le_succ _, by simp, fun q => ?_⟩
    have hset := weigh_set (Conn.waiting q) hc (.acquiring ⟨w.received, c, cmd⟩)
    simp only [Conn.waiting] at hset
    simp only [World.waiting, begun, Option.any_none, Option.any_some, Bool.toNat_false]
    omega
  | refuseHmac hc | refuseSector hc =>
    rw [taken]
    simp only [getElem?_set_of hc]
    exact moves_of_le (Nat.le_succ _) (waiting_conn hc _ (by simp [Conn.waiting]) _ _ _)
  | misdirect hc =>
    rw [taken]
    simp only [getElem?_set_of hc]
    exact moves_of_le le_rfl (waiting_conn hc _ (by simp [Conn.waiting]) _ _ _)
  | deliver hc hk =>
    simp only [taken, hc]
    exact moves_of_le le_rfl (waiting_worker hk _ (by simp [Worker.push]) _ _)
  | ignore hc =>
    simp only [taken, hc]
    exact moves_of_le le_rfl fun q => le_rfl
  | hangUp hc => exact moves_of_le le_rfl (waiting_conn hc _ (by simp [Conn.waiting]) _ _ _)
  | acquire hc => exact moves_of_le le_rfl (waiting_conn hc _ (by simp [Conn.waiting]) _ _ _)
  | @send c t k hc hk =>
    refine moves_of_le le_rfl fun q => ?_
    have hconn := weigh_set (Conn.waiting q) hc .reading
    have hset := weigh_set (fun k : Worker => carried q k.queue) hk (k.push (.client t.cmd, some t))
    simp only [Conn.waiting, Worker.push, carried_append, carried_cons, carried_nil, Option.any_some] at hconn hset
    simp only [World.waiting, Worker.push]
    omega
  | @reply c x t bytes hc => exact moves_of_le le_rfl (waiting_conn hc _ (by simp [Conn.waiting]) _ _ _)
  | selfMessage hk => exact moves_of_le le_rfl (waiting_worker hk _ (by simp [Worker.push]) _ _)
  | @client s uuid order cmd t queue r hk =>
    have hbegun : begun w (.work s uuid order) = some t := by simp [begun, hk]
    rw [hbegun]
    refine ⟨le_rfl, by simp [taken], fun q => ?_⟩
    have hset := weigh_set (fun k : Worker => carried q k.queue) hk
      ⟨queue, (clientCommand r cmd t uuid).1, none⟩
    simp only [carried_cons, Option.any_some] at hset
    simp only [World.waiting, taken, Option.any_some, Option.any_none, Bool.toNat_false]
    omega
  | @system s uuid order cmd callback queue r r' effs hk =>
    have hbegun : begun w (.work s uuid order) = none := by simp [begun, hk]
    rw [hbegun]
    exact moves_of_le le_rfl (waiting_worker hk _ (by simp) _ _)
  | respond hk => exact moves_of_le le_rfl (waiting_worker hk _ (by simp) _ _)
  | release hk => exact moves_of_le le_rfl (waiting_worker hk _ (by simp) _ _)

/-! ### Tasks that panic -/

variable {u u' : Tasks} {te : TaskEvent}

/-- The command that a step of the tasks has accepted, from the state after it. -/
def takenBy (u' : Tasks) : TaskEvent → Option Ticket
  | .run e => taken u'.world e
  | _ => none

def begunBy (u : Tasks) : TaskEvent → Option Ticket
  | .run e => begun u.world e
  | _ => none

theorem dies_moves (p : Config) (hk : u.world.workers[s]? = some k) (k' : Worker)
    (hqueue : ∀ q, carried q k'.queue ≤ carried q k.queue) :
    Moves u.world (u.dies p s k').world none none :=
  moves_of_le le_rfl (waiting_worker hk ⟨k'.queue, _, none⟩ hqueue _ _)

/-- What panics or ends loses commands. -/
theorem taskStep_moves (hs : taskStep p u te = some (u', effs)) :
    Moves u.world u'.world (takenBy u' te) (begunBy u te) := by
  cases taskStep_stepped hs with
  | runs hrun => exact step_moves hrun
  | fails => exact moves_of_le le_rfl fun q => le_rfl
  | @closes e c x hc hheld hconn =>
    have hlt := (List.getElem?_eq_some_iff.mp hc).1
    have hnone : takenBy (u.closes c) (.run e) = none ∧ begunBy u (.run e) = none := by
      cases e with
      | receive c' cmd ok =>
        obtain rfl : c' = c := Option.some.inj hconn
        refine ⟨?_, rfl⟩
        simp only [takenBy, taken, Tasks.closes, List.getElem?_set_self hlt]
      | hangUp | acquire | send | reply => exact ⟨rfl, rfl⟩
      | _ => cases hconn
    rw [hnone.1, hnone.2]
    exact moves_of_le le_rfl (waiting_conn hc _ (by simp [Conn.waiting]) _ _ _)
  | abandons hc => exact moves_of_le le_rfl (waiting_conn hc _ (by simp [Conn.waiting]) _ _ _)
  | selfHandlerPanics => exact moves_of_le le_rfl fun q => le_rfl
  | handlerPanics hk => exact dies_moves p hk _ (by simp)
  | callbackPanics hk => exact dies_moves p hk _ (by simp)

end AtomicDisk.Process
