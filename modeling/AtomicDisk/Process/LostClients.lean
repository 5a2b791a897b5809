import AtomicDisk.Process.Tasks
import AtomicDisk.Process.Responses

/-! A client that is lost before it has its response. The response is written inside the callback, which
    the worker of the sector awaits, and `send_response` expects `write_all` to succeed:

        socket takes the response ──▶ permit released, worker goes on
        socket does not           ──▶ worker panics; the sector is not served any more

    So a lost client leaves its sector as if it had been served exactly when the failure is noticed only
    after the socket has taken the whole response. -/

namespace AtomicDisk.Process
open Schemes Register Transfer

variable {p : Config} {w w' : Tasks} {e : TaskEvent} {effs : List (Effect Ticket)} {s : ℕ} {k : Worker}
  {t : Ticket} {op : OperationSuccess} {tr : TaskTrace}
  {queue : List (RegisterCommand × Option Ticket)} {r : AtomicRegisterState Ticket}

/-! ### A worker that has panicked -/

/-- No callback is run by a worker that has panicked. -/
def DeadIdle (w : Tasks) : Prop :=
  ∀ i k, w.world.workers[i]? = some k → i ∈ w.dead → k.running = none

theorem deadIdle_runs {e : Event} {world : World} (h : DeadIdle w) (hs : Stepped p w.world e world effs)
    (hwork : ∀ s uuid order, e = .work s uuid order → s ∉ w.dead) :
    ∀ i k, world.workers[i]? = some k → i ∈ w.dead → k.running = none := by
  cases hs with
  | accept | take | refuseHmac | refuseSector | misdirect | ignore | hangUp | acquire | reply => exact h
  | @deliver _ _ k _ hk | @selfMessage _ k hk => exact forall_set h fun hdead => h _ k hk hdead
  | @send c t k _ hk => exact forall_set h fun hdead => h _ k hk hdead
  | client hk => exact forall_set h fun _ => rfl
  | @system s uuid order _ _ _ _ _ _ hk =>
    exact forall_set h fun hdead => absurd hdead (hwork s uuid order rfl)
  | respond hk => exact forall_set h fun hdead => by simpa using h _ _ hk hdead
  | release => exact forall_set h fun _ => rfl

theorem DeadIdle.dies (h : DeadIdle w) : DeadIdle (w.dies p s k) := by
  intro i k' hk' hdead
  simp only [Tasks.dies, List.getElem?_set] at hk'
  split at hk'
  · rename_i heq
    split at hk'
    · obtain rfl := Option.some.inj hk'
      rfl
    · simp at hk'
  · rename_i hne
    exact h i k' hk' ((List.mem_cons.mp hdead).resolve_left (Ne.symm hne))

theorem deadIdle_taskStep (h : DeadIdle w) (hs : TaskStepped p w e w' effs) : DeadIdle w' := by
  cases hs with
  | @runs e world effs failed hs hwork => exact deadIdle_runs (w := w) h (step_stepped hs) hwork
  | fails | closes | abandons | selfHandlerPanics => exact h
  | handlerPanics | callbackPanics => exact h.dies

theorem deadIdle (hr : TasksRun p tr w) : DeadIdle w :=
  hr.invariant (I := fun _ w => DeadIdle w) (by simp [DeadIdle, initTasks])
    fun _ _ _ h _ hs => deadIdle_taskStep h (taskStep_stepped hs)

theorem dead_exec {es : List TaskEvent} {tr : TaskTrace} (hdead : s ∈ w.dead)
    (h : exec (taskStep p) w es = some (tr, w')) :
    ∀ x ∈ tr, ∀ uuid order, x.event ≠ .run (.work s uuid order) := by
  induction es generalizing w tr with
  | nil =>
    obtain ⟨rfl, -⟩ := Prod.mk.inj (Option.some.inj h)
    simp
  | cons e es ih =>
    rw [exec] at h
    split at h
    · simp at h
    · rename_i w₁ effs hs
      obtain ⟨⟨tr₁, w₂⟩, hexec, heq⟩ := Option.map_eq_some_iff.mp h
      obtain ⟨rfl, rfl⟩ := Prod.mk.inj heq
      obtain ⟨hdead₁, hne⟩ := dead_taskStep hdead (taskStep_stepped hs)
      intro x hx
      rcases List.mem_cons.mp hx with rfl | hx
      · exact hne
      · exact ih hdead₁ hexec x hx

/-! ### Completing an operation -/

/-- The callback is run to its end, or to its panic. -/
def complete (p : Config) (w : Tasks) (s : ℕ) : Option Tasks := do
  let (w, _) ← taskStep p w (.run (.respond s))
  if s ∈ w.dead then some w
  else (taskStep p w (.run (.release s))).map Prod.fst

/-- The state if the response had been delivered: that of a process of which no connection has failed,
    with connection `c` as it is after `n` bytes. -/
def asDelivered (p : Config) (w : Tasks) (s c n : ℕ) : Option Tasks :=
  (complete p { w with failed := fun _ => none } s).map fun w' =>
    { w' with failed := (w.taken c n).failed }

/-- What a completed operation, of which the response has `n` bytes, leaves of its sector. -/
structure Unharmed (p : Config) (w : Tasks) (s c n : ℕ) (w' : Tasks) : Prop where
  /-- the worker is running -/
  running : s ∉ w'.dead
  /-- its register is idle -/
  idle : ∃ k, w'.world.workers[s]? = some k ∧ k.running = none ∧ Idle k.register
  /-- the permit is released -/
  permit : w.world.guards[s]? = some 0 ∧ w'.world.guards[s]? = some 1
  /-- whatever happens next goes as if the response had been delivered -/
  later : ∃ w'', asDelivered p w s c n = some w'' ∧
    ∀ es, exec (taskStep p) w' es = exec (taskStep p) w'' es

/-- The state after a callback that has been run to its end. -/
def completed (p : Config) (w : Tasks) (s : ℕ) (k : Worker) (t : Ticket) (op : OperationSuccess) : Tasks :=
  { w.taken t.conn (responseBytes p t op).length with
    world := { w.world with
      workers := w.world.workers.set s { k with running := none }
      guards := w.world.guards.modify t.sector (· + 1)
      written := w.world.written ++ [⟨t.conn, t, responseBytes p t op⟩] } }

theorem complete_takes (hk : w.world.workers[s]? = some ⟨queue, r, some (.respond t op)⟩)
    (hdead : s ∉ w.dead) (htakes : w.takes t.conn (responseBytes p t op).length = true) :
    complete p w s = some (completed p w s ⟨queue, r, none⟩ t op) := by
  obtain ⟨⟨rid, msgType⟩, hmsg⟩ := getRidAndMsgType_client t.cmd
  have hlt : s < w.world.workers.length := (List.getElem?_eq_some_iff.mp hk).1
  have hbytes : responseBytes p t op = constructValidResponse p.hmac op p.hmacClientKey msgType rid := by
    rw [responseBytes, hmsg]
    rfl
  have hrespond : step p w.world (.respond s) = some ({ w.world with
      workers := w.world.workers.set s ⟨queue, r, some (.release t)⟩
      written := w.world.written ++ [⟨t.conn, t, responseBytes p t op⟩] }, []) := by
    simp only [step, hk, hmsg, Option.map_some, hbytes]
  have hset : (w.world.workers.set s ⟨queue, r, some (.release t)⟩)[s]? =
      some ⟨queue, r, some (.release t)⟩ := List.getElem?_set_self hlt
  have hfirst : taskStep p w (.run (.respond s)) = some ({ w.taken t.conn (responseBytes p t op).length with
      world := { w.world with
        workers := w.world.workers.set s ⟨queue, r, some (.release t)⟩
        written := w.world.written ++ [⟨t.conn, t, responseBytes p t op⟩] } }, []) := by
    simp only [taskStep, hk]
    rw [if_pos htakes, Tasks.runs]
    exact congrArg (Option.map _) hrespond
  simp only [complete, hfirst, Option.bind_eq_bind, Option.bind_some]
  rw [if_neg (show s ∉ (w.taken t.conn (responseBytes p t op).length).dead from hdead)]
  simp only [taskStep, Tasks.runs, step, hset, Option.map_some, List.set_set]
  rfl

theorem complete_fails (hk : w.world.workers[s]? = some ⟨queue, r, some (.respond t op)⟩)
    (htakes : w.takes t.conn (responseBytes p t op).length = false) :
    complete p w s = some (w.dies p s ⟨queue, r, some (.respond t op)⟩) := by
  simp [complete, taskStep, hk, htakes, Tasks.dies]

/-- A register whose callback is being run is idle, and its permit is taken. -/
theorem Sound.responding {w : World} (h : Sound p w)
    (hk : w.workers[s]? = some ⟨queue, r, some (.respond t op)⟩) :
    t.sector = s ∧ Idle r ∧ w.guards[s]? = some 0 := by
  have hplaced := h.placed s _ hk
  have hsector : t.sector = s := hplaced.running (.respond t op) rfl
  have hlt : s < w.guards.length := by
    rw [h.guards, ← h.workers]
    exact (List.getElem?_eq_some_iff.mp hk).1
  have hpermit := h.permit s _ (List.getElem?_eq_getElem hlt)
  have hle := le_weigh (Worker.held (forSector s)) hk
  simp only [Worker.held, Option.any_some, Running.ticket, forSector_toNat, hsector, if_true] at hle
  simp only [World.held] at hpermit
  refine ⟨hsector, ?_, ?_⟩
  · cases hcb : r.callback with
    | none => exact hplaced.idle hcb
    | some t' =>
      -- two tickets of the sector would hold a permit
      have ht' : t'.sector = s := (hplaced.callback t' hcb).1
      simp only [hcb, Option.any_some, forSector_toNat, ht', if_true] at hle
      omega
  · rw [List.getElem?_eq_getElem hlt]
    congr 1
    omega

/-- CORRECT (exactly when): in every reachable state, completing an operation leaves its sector as if the
    response had been delivered if and only if the socket still takes the whole response. -/
theorem unharmed_iff (hr : TasksRun p tr w)
    (hk : w.world.workers[s]? = some ⟨queue, r, some (.respond t op)⟩) :
    (∃ w', complete p w s = some w' ∧ Unharmed p w s t.conn (responseBytes p t op).length w') ↔
      w.takes t.conn (responseBytes p t op).length = true := by
  have hdead : s ∉ w.dead := fun hdead => by simpa using deadIdle hr s _ hk hdead
  obtain ⟨hsector, hidle, hguard⟩ := (tasks_sound hr).responding hk
  have hlt : s < w.world.workers.length := (List.getElem?_eq_some_iff.mp hk).1
  constructor
  · rintro ⟨w', hcomplete, hunharmed⟩
    by_contra hnot
    rw [complete_fails hk (by simpa using hnot)] at hcomplete
    obtain rfl := Option.some.inj hcomplete
    exact hunharmed.running (List.mem_cons_self ..)
  · intro htakes
    refine ⟨_, complete_takes hk hdead htakes, hdead, ⟨⟨queue, r, none⟩, ?_, rfl, hidle⟩, ⟨hguard, ?_⟩, ?_⟩
    · simp [completed, hlt]
    · simp [completed, hsector, hguard]
    · refine ⟨completed p w s ⟨queue, r, none⟩ t op, ?_, fun es => rfl⟩
      have hnone := complete_takes (p := p) (w := { w with failed := fun _ => none }) hk hdead
        (by simp [Tasks.takes])
      rw [asDelivered, hnone]
      rfl

/-! ### A client that reads and goes away -/

/-- The read of a client, up to its response. -/
def readUpToResponse : List TaskEvent :=
  [.run .accept, .run (.receive 0 (.client readRequest) true), .run (.acquire 0), .run (.send 0),
    .run (.work 0 (uuid 1) .asIs), .run (.selfMessage ⟨⟨1, uuid 1, 0⟩, .value 0 0 .zeros⟩),
    .run (.work 0 (uuid 1) .asIs), .run (.selfMessage ⟨⟨1, uuid 1, 0⟩, .ack⟩),
    .run (.work 0 (uuid 1) .asIs)]

/-- Whether the response that the worker is about to write is taken, if there is one. -/
def responding (p : Config) (w : Tasks) (s : ℕ) : Option Bool :=
  match w.world.workers[s]? with
  | some ⟨_, _, some (.respond t op)⟩ => some (w.takes t.conn (responseBytes p t op).length)
  | _ => none

/-- What the connection of the callback that the worker is running still takes, if it has failed. -/
def failedAt (w : Tasks) (s : ℕ) : Option (Option ℕ) :=
  (w.world.workers[s]?.bind Worker.running).map fun x => w.failed x.ticket.conn

theorem responding_eq {b : Bool} (h : responding p w s = some b) :
    ∃ queue r t op, w.world.workers[s]? = some ⟨queue, r, some (.respond t op)⟩ ∧
      w.takes t.conn (responseBytes p t op).length = b := by
  unfold responding at h
  split at h
  · rename_i queue r t op hk
    exact ⟨queue, r, t, op, hk, Option.some.inj h⟩
  · simp at h

section run
-- sectors of 4096 bytes are compared byte by byte when a concrete run is replayed
set_option maxRecDepth 40000

/-- A client whose connection fails before its response is written, and takes 5000 bytes more: the response is
    written, and the sector goes on as if it had been delivered. -/
theorem unharmed_read : ∃ tr w s t n w', TasksRun oneSector tr w ∧ w.failed (Ticket.conn t) = some 5000 ∧
    complete oneSector w s = some w' ∧ Unharmed oneSector w s (Ticket.conn t) n w' := by
  obtain ⟨tr, w, hr, hobs⟩ := Run.exists_of_exec (taskStep oneSector) (fun _ _ => True)
    (initTasks oneSector) (readUpToResponse ++ [.fail 0 5000])
    (fun _ w => decide (responding oneSector w 0 = some true) && decide (failedAt w 0 = some (some 5000)))
    (by decide +kernel)
  rw [Bool.and_eq_true, decide_eq_true_eq, decide_eq_true_eq] at hobs
  obtain ⟨queue, r, t, op, hk, htakes⟩ := responding_eq hobs.1
  obtain ⟨w', hcomplete, hunharmed⟩ := (unharmed_iff hr hk).mpr htakes
  exact ⟨tr, w, 0, t, _, w', hr, by simpa [failedAt, hk, Running.ticket] using hobs.2, hcomplete, hunharmed⟩

/-- A client whose connection fails before its response is written, and takes nothing more: the worker of
    the sector panics, and whatever happens next, no command is handled by it. -/
theorem lost_client_harms : ∃ tr w s queue r t op w',
    TasksRun oneSector tr w ∧ w.world.workers[s]? = some ⟨queue, r, some (.respond t op)⟩ ∧
    w.failed t.conn = some 0 ∧ complete oneSector w s = some w' ∧
    ¬ Unharmed oneSector w s t.conn (responseBytes oneSector t op).length w' ∧
    ∀ es tr' w'', exec (taskStep oneSector) w' es = some (tr', w'') →
      ∀ x ∈ tr', ∀ uuid order, x.event ≠ .run (.work s uuid order) := by
  obtain ⟨tr, w, hr, hobs⟩ := Run.exists_of_exec (taskStep oneSector) (fun _ _ => True)
    (initTasks oneSector) (readUpToResponse ++ [.fail 0 0])
    (fun _ w => decide (responding oneSector w 0 = some false) && decide (failedAt w 0 = some (some 0)))
    (by decide +kernel)
  rw [Bool.and_eq_true, decide_eq_true_eq, decide_eq_true_eq] at hobs
  obtain ⟨queue, r, t, op, hk, htakes⟩ := responding_eq hobs.1
  refine ⟨tr, w, 0, queue, r, t, op, _, hr, hk, ?_, complete_fails hk htakes, ?_, ?_⟩
  · simpa [failedAt, hk, Running.ticket] using hobs.2
  · intro hunharmed
    exact hunharmed.running (List.mem_cons_self ..)
  · intro es tr' w'' hexec
    exact dead_exec (List.mem_cons_self ..) hexec

end run

end AtomicDisk.Process
