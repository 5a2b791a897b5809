import AtomicDisk.Node.Slots
import AtomicDisk.Process.Responses
import AtomicDisk.Process.Tickets

/-! The client commands that wait in a process, over its crashes. They are numbered in the order they come;
    numbers start anew with the process, so a command is named by its number and by how often the process has
    been started. The names only grow (`epoch`):

        down      recovering      up, n received      down      recovering      up …
        (1, 0)      (1, 0)           (1, n)           (2, 0)      (2, 0)       (2, …) -/

namespace AtomicDisk.Node
open Schemes Register Transfer
open Process (Config Tasks TaskEvent Ticket Worker taskStep taskStep_moves carried numbered)
open Storage (FileName Call)

/-- The client commands that no worker has begun with and that meet `q`. -/
def World.waiting (q : Ticket → Bool) (w : World) : ℕ :=
  match w.phase with
  | .up l => l.tasks.world.waiting q
  | _ => 0

/-- How many client commands have been received since the process has started. -/
def World.received (w : World) : ℕ :=
  match w.phase with
  | .up l => l.tasks.world.received
  | _ => 0

/-- The client command that a step has accepted, from the state after it. -/
def taken (w' : World) : Event → Option Ticket
  | .read c _ =>
    match w'.phase with
    | .up l =>
      match l.tasks.world.conns[c]? with
      | some (.acquiring t) => some t
      | _ => none
    | _ => none
  | _ => none

/-- The client command that a worker begins with. -/
def begun (w : World) : Event → Option Ticket
  | .task te =>
    match w.phase with
    | .up l => Process.begunBy l.tasks te
    | _ => none
  | _ => none

/-- The command waits. -/
def World.Waits (w : World) (t : Ticket) : Prop := 0 < w.waiting fun t' => decide (t' = t)

/-- What a step does to the commands that wait. -/
structure Moves (w w' : World) (taken begun : Option Ticket) : Prop where
  received : w.received ≤ w'.received ∨ ∀ q, w'.waiting q = 0
  fresh : ∀ t ∈ taken, t.number = w.received ∧ w'.received = w.received + 1
  waiting : ∀ q, w'.waiting q + (begun.any q).toNat ≤ w.waiting q + (taken.any q).toNat

variable {p : Config} {key : List UInt8} {dir : Directory FileName} {l l' : Live} {w w' : World} {e : Event}
  {t : Ticket} {s n : ℕ} {x : Slot}

theorem moves_of_tasks {te : TaskEvent} {tasks : Tasks} {effs : List (Effect Ticket)}
    (hs : taskStep (l.config p) l.tasks te = some (tasks, effs)) {dir' : Directory FileName}
    (htasks : l'.tasks = tasks) {taken begun : Option Ticket} (htaken : Process.takenBy tasks te = taken)
    (hbegun : Process.begunBy l.tasks te = begun) : Moves ⟨dir, .up l⟩ ⟨dir', .up l'⟩ taken begun := by
  have hm := taskStep_moves hs
  subst htasks htaken hbegun
  exact ⟨Or.inl hm.received, hm.fresh, hm.waiting⟩

theorem moves_of_same (hwaiting : ∀ q, w'.waiting q = w.waiting q) (hreceived : w'.received = w.received) :
    Moves w w' none none :=
  ⟨Or.inl hreceived.ge, by simp, fun q => by simp [hwaiting q]⟩

theorem moves_of_none (h : ∀ q, w'.waiting q = 0) : Moves w w' none none :=
  ⟨Or.inr h, by simp, fun q => by simp [h q]⟩

theorem takenBy_unfed {te : TaskEvent} (h : unfed te = true) (tasks : Tasks) : Process.takenBy tasks te = none := by
  cases te with
  | run pe =>
    cases pe with
    | receive => cases h
    | _ => rfl
  | _ => rfl

theorem hangUp_closed {u u' : Tasks} {c : ℕ} {effs : List (Effect Ticket)}
    (hs : taskStep p u (.run (.hangUp c)) = some (u', effs)) : u'.world.conns[c]? = some .closed := by
  obtain ⟨world, hstep, rfl⟩ := Tasks.runs_eq hs
  cases Process.step_stepped hstep with
  | hangUp hc => exact getElem?_set_of hc

/-- A process starts with no client commands. -/
theorem boot_waiting (p : Config) (m : Storage.SectorsManagerState) (q : Ticket → Bool) :
    World.waiting q ⟨m.dir, .up (boot p m)⟩ = 0 := by
  have hworkers : ∀ k ∈ (Process.init { p with sectors := (boot p m).sectors }).workers, carried q k.queue = 0 := by
    intro k hk
    obtain ⟨s, -, rfl⟩ := List.mem_map.mp hk
    rfl
  have hzero := weigh_eq_zero hworkers
  simp only [World.waiting, boot, Process.initTasks, Process.World.waiting]
  exact Nat.add_eq_zero_iff.mpr ⟨rfl, hzero⟩

/-- A step accepts a command, moves one on, begins with one or loses some. -/
theorem stepped_moves (hs : Stepped p key w e w') : Moves w w' (taken w' e) (begun w e) := by
  cases hs with
  | task hunfed _ htask => exact moves_of_tasks htask rfl (takenBy_unfed hunfed _) rfl
  | @work _ _ te s _ _ hbegins _ htask =>
    refine moves_of_tasks htask rfl (takenBy_unfed ?_ _) rfl
    cases te with
    | run pe =>
      cases pe with
      | work => rfl
      | _ => cases hbegins
    | _ => rfl
  | read _ htask => exact moves_of_tasks htask rfl rfl rfl
  | @hangUp dir l c stream fault tasks effs _ htask =>
    have hclosed : tasks.world.conns[c]? = some .closed := hangUp_closed htask
    refine moves_of_tasks htask rfl ?_ rfl
    simp [taken, hclosed, Process.takenBy, Process.taken]
  | selfMessage _ htask => exact moves_of_tasks htask rfl rfl rfl
  | begins | written | calls | returns | callback | push | client | advance | fillPartly =>
    exact moves_of_same (fun _ => rfl) rfl
  | @panics dir l e s k he hdead hk =>
    have hm := Process.dies_moves (l.config p) hk k fun _ => le_rfl
    rcases he with rfl | rfl | rfl <;> exact ⟨Or.inl hm.received, hm.fresh, hm.waiting⟩
  | crash => exact moves_of_none fun _ => rfl
  | restart | recover | recoverPanics => exact moves_of_none fun _ => rfl
  | recovered => exact moves_of_none (boot_waiting p _)

/-! ### Commands and their numbers -/

theorem Moves.waits {new old : Option Ticket} (h : Moves w w' new old) (ht : w'.Waits t) :
    w.Waits t ∨ new = some t := by
  have hle := h.waiting fun t' => decide (t' = t)
  rw [World.Waits] at ht ⊢
  rcases Nat.eq_zero_or_pos (w.waiting fun t' => decide (t' = t)) with hzero | hpos
  · right
    cases new with
    | none =>
      simp only [Option.any_none, Bool.toNat_false] at hle
      omega
    | some t' =>
      by_cases heq : t' = t
      · rw [heq]
      · simp only [Option.any_some, heq, decide_false, Bool.toNat_false] at hle
        omega
  · exact Or.inl hpos

/-- The more tickets are asked for, the more there are. -/
theorem waiting_mono {q q' : Ticket → Bool} (h : ∀ t, q t = true → q' t = true) (w : World) :
    w.waiting q ≤ w.waiting q' := by
  have hle : ∀ t, (q t).toNat ≤ (q' t).toNat := by
    intro t
    cases hq : q t with
    | true => simp [h t hq]
    | false => simp
  have hany : ∀ x : Option Ticket, (x.any q).toNat ≤ (x.any q').toNat := by
    intro x
    cases x with
    | none => simp
    | some t => exact hle t
  obtain ⟨dir, phase⟩ := w
  cases phase with
  | up l =>
    refine Nat.add_le_add (weigh_le fun k => ?_) (weigh_le fun k => weigh_le fun x => hany x.2)
    cases k with
    | acquiring t | sending t => exact hle t
    | _ => exact le_rfl
  | recovering | down => exact le_rfl

theorem World.Waits.numbered (h : w.Waits t) : 0 < w.waiting (numbered t.number) := by
  refine h.trans_le (waiting_mono (fun t' ht' => ?_) w)
  rw [of_decide_eq_true ht', Process.numbered]
  exact decide_eq_true rfl

/-- Every command that waits has a number of its own. -/
def Numbered (w : World) : Prop := ∀ n, w.waiting (numbered n) ≤ if n < w.received then 1 else 0

theorem Moves.numbered {new old : Option Ticket} (h : Moves w w' new old) (hw : Numbered w) : Numbered w' := by
  intro n
  rcases h.received with hle | hzero
  · have hn := hw n
    have hmoves := h.waiting (Process.numbered n)
    cases new with
    | none =>
      simp only [Option.any_none, Bool.toNat_false] at hmoves
      split_ifs at hn ⊢ <;> omega
    | some t =>
      obtain ⟨hnumber, hreceived⟩ := h.fresh t rfl
      have hone : ((some t).any (Process.numbered n)).toNat ≤ if n = w.received then 1 else 0 := by
        by_cases heq : t.number = n
        · rw [if_pos (heq ▸ hnumber)]
          exact Bool.toNat_le _
        · simp [Process.numbered, heq]
      split_ifs at hn hone ⊢ <;> omega
  · rw [hzero]
    exact Nat.zero_le _

/-- No other command has the number of the one that a worker begins with. -/
theorem Moves.begun_once (h : Moves w w' none (some t)) (hw : Numbered w) :
    w'.waiting (Process.numbered t.number) = 0 := by
  have hn := hw t.number
  have hmoves := h.waiting (Process.numbered t.number)
  simp only [Option.any_some, Option.any_none, Process.numbered, decide_true, Bool.toNat_true,
    Bool.toNat_false] at hmoves
  split_ifs at hn <;> omega

/-- What is in a queue waits. -/
theorem waits_of_queue {cmd : RegisterCommand} (hx : w.slot s = some x) (hq : (cmd, some t) ∈ x.worker.queue) :
    w.Waits t := by
  obtain ⟨dir, phase⟩ := w
  cases phase with
  | up l =>
    obtain ⟨-, hk, -⟩ := slot_eq_some.mp hx
    have hworker := le_weigh (fun k : Worker => carried (fun t' => decide (t' = t)) k.queue) hk
    obtain ⟨m, hm⟩ := List.getElem?_of_mem hq
    have hitem := le_weigh (fun y : RegisterCommand × Option Ticket => (y.2.any fun t' => decide (t' = t)).toNat) hm
    simp only [Option.any_some, decide_true, Bool.toNat_true] at hitem
    refine Nat.lt_of_lt_of_le ?_ (Nat.le_add_left _ _)
    exact lt_of_lt_of_le hitem hworker
  | recovering => cases hx
  | down => cases hx

/-- A lower bound for the names of the commands that are still to come, for a process that has been started
    `n` times. -/
def epoch (n : ℕ) (w : World) : ℕ ×ₗ ℕ :=
  match w.phase with
  | .up l => toLex (n, l.tasks.world.received)
  | .recovering .. => toLex (n, 0)
  | .down => toLex (n + 1, 0)

/-- How often a process has been started after a step. -/
def startedBy (n : ℕ) : Event → ℕ
  | .restart _ => n + 1
  | _ => n

theorem toLex_le_number (n : ℕ) {a b : ℕ} (h : a ≤ b) : toLex (n, a) ≤ toLex (n, b) :=
  (Prod.Lex.toLex_le_toLex (x := (n, a)) (y := (n, b))).mpr (Or.inr ⟨rfl, h⟩)

theorem toLex_le_start (n a : ℕ) : toLex (n, a) ≤ toLex (n + 1, 0) :=
  (Prod.Lex.toLex_le_toLex (x := (n, a)) (y := (n + 1, 0))).mpr (Or.inl (Nat.lt_succ_self n))

/-- Names only grow. -/
theorem epoch_le (hs : Stepped p key w e w') (n : ℕ) : epoch n w ≤ epoch (startedBy n e) w' := by
  cases hs with
  | task _ _ htask | work _ _ htask | read _ htask | hangUp _ htask | selfMessage _ htask =>
    exact toLex_le_number n (taskStep_moves htask).received
  | begins | written | calls | returns | callback | push | client | advance | fillPartly =>
    exact le_rfl
  | panics he => rcases he with rfl | rfl | rfl <;> exact le_rfl
  | @crash dir phase hphase =>
    cases phase with
    | up l => exact toLex_le_start n _
    | recovering => exact toLex_le_start n 0
    | down => exact absurd rfl hphase
  | restart | recover | recovered => exact le_rfl
  | recoverPanics => exact toLex_le_start n 0

/-- The command that a step accepts has the first name that is free. -/
theorem epoch_taken (hs : Stepped p key w e w') (ht : taken w' e = some t) (n : ℕ) :
    toLex (n, t.number) = epoch n w ∧ epoch n w < epoch (startedBy n e) w' := by
  obtain ⟨hnumber, hreceived⟩ := (stepped_moves hs).fresh t ht
  cases hs with
  | read | hangUp =>
    refine ⟨congrArg (fun m => toLex (n, m)) hnumber, ?_⟩
    refine (Prod.Lex.toLex_lt_toLex (x := (n, _)) (y := (n, _))).mpr (Or.inr ⟨rfl, ?_⟩)
    exact Nat.lt_of_lt_of_eq (Nat.lt_succ_self _) hreceived.symm
  | panics he => rcases he with rfl | rfl | rfl <;> cases ht
  | _ => cases ht

/-- A process that is up after a step has not been started in it. -/
theorem startedBy_up (hs : Stepped p key w e w') (hup : w'.phase = .up l) (n : ℕ) : startedBy n e = n := by
  cases hs with
  | restart => cases hup
  | panics he => rcases he with rfl | rfl | rfl <;> rfl
  | _ => rfl

end AtomicDisk.Node
