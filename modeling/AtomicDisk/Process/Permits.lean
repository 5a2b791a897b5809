import AtomicDisk.Process.Steps

/-! One operation at a time. The permit of a sector is in its semaphore, with a connection that is about
    to send, in the queue of the worker, in the register's callback or with the callback being run, and
    nowhere twice:

        permits left + tickets of the sector that hold one = 1

    so a register is given a client command only when it holds no other. -/

namespace AtomicDisk.Process
open Schemes Register Transfer

/-! ### Who holds a permit -/

def Running.ticket : Running → Ticket
  | .respond t _ => t
  | .release t => t

/-- The tickets in a queue that meet `q`. -/
def carried (q : Ticket → Bool) (queue : List (RegisterCommand × Option Ticket)) : ℕ :=
  weigh (fun x => (x.2.any q).toNat) queue

/-- The tickets with a permit at a connection that meet `q`. -/
def Conn.held (q : Ticket → Bool) : Conn → ℕ
  | .sending t => (q t).toNat
  | _ => 0

/-- The tickets with a permit at a worker that meet `q`. -/
def Worker.held (q : Ticket → Bool) (k : Worker) : ℕ :=
  carried q k.queue + (k.register.callback.any q).toNat + (k.running.any fun x => q x.ticket).toNat

/-- The tickets with a permit that meet `q`. -/
def World.held (q : Ticket → Bool) (w : World) : ℕ :=
  weigh (Conn.held q) w.conns + weigh (Worker.held q) w.workers

/-- The ticket is for sector `i`. -/
def forSector (i : ℕ) (t : Ticket) : Bool := decide (t.sector = i)

/-- What is in the queue of worker `i`: client commands with their tickets, and system commands. -/
def Queued (i : ℕ) : RegisterCommand × Option Ticket → Prop
  | (.client cmd, some t) => t.cmd = cmd ∧ t.sector = i
  | (.system _, none) => True
  | _ => False

/-- What is at worker `i`. -/
structure Placed (i : ℕ) (k : Worker) : Prop where
  queue : ∀ x ∈ k.queue, Queued i x
  callback : ∀ t ∈ k.register.callback, t.sector = i ∧ WorksOn k.register t.cmd
  idle : k.register.callback = none → Idle k.register
  running : ∀ x ∈ k.running, x.ticket.sector = i

/-- The invariant: every permit is in one place, and all that is at a worker belongs there. -/
structure Sound (p : Config) (w : World) : Prop where
  guards : w.guards.length = p.nSectors.toNat
  workers : w.workers.length = p.nSectors.toNat
  permit : ∀ i g, w.guards[i]? = some g → g + w.held (forSector i) = 1
  placed : ∀ i k, w.workers[i]? = some k → Placed i k

variable {p : Config} {w w' : World} {e : Event} {effs : List (Effect Ticket)} {q : Ticket → Bool}
  {i s : ℕ} {k : Worker} {t : Ticket}

@[simp] theorem carried_append (q : Ticket → Bool) (a b : List (RegisterCommand × Option Ticket)) :
    carried q (a ++ b) = carried q a + carried q b := weigh_append _ a b

@[simp] theorem carried_cons (q : Ticket → Bool) (x : RegisterCommand × Option Ticket)
    (l : List (RegisterCommand × Option Ticket)) :
    carried q (x :: l) = (x.2.any q).toNat + carried q l := by
  simp [carried, weigh]

/-! ### The permit allows one client command -/

/-- A register that is given a client command is idle. -/
theorem Sound.idle (h : Sound p w) {cmd : ClientRegisterCommand} {callback : Option Ticket}
    {queue : List (RegisterCommand × Option Ticket)} {r : AtomicRegisterState Ticket}
    {running : Option Running}
    (hk : w.workers[s]? = some ⟨(.client cmd, callback) :: queue, r, running⟩) : Idle r := by
  have hplaced := h.placed s _ hk
  cases hcb : r.callback with
  | none => exact hplaced.idle hcb
  | some t' =>
    -- two tickets of the sector would hold a permit
    have hhead := hplaced.queue _ (List.mem_cons_self ..)
    cases callback with
    | none => exact absurd hhead id
    | some t =>
      obtain ⟨-, ht⟩ : t.cmd = cmd ∧ t.sector = s := hhead
      have ht' : t'.sector = s := (hplaced.callback t' hcb).1
      have hlt : s < w.guards.length := by
        rw [h.guards, ← h.workers]
        exact (List.getElem?_eq_some_iff.mp hk).1
      have hpermit := h.permit s _ (List.getElem?_eq_getElem hlt)
      have hle := le_weigh (Worker.held (forSector s)) hk
      simp only [Worker.held, carried_cons, hcb, Option.any_some, forSector, ht, ht', decide_true,
        Bool.toNat_true] at hle
      simp only [World.held] at hpermit
      omega

/-! ### What is at a worker -/

theorem Placed.push (h : Placed i k) {x : RegisterCommand × Option Ticket} (hx : Queued i x) :
    Placed i (k.push x) := by
  refine ⟨fun y hy => ?_, h.callback, h.idle, h.running⟩
  rcases List.mem_append.mp hy with hy | hy
  · exact h.queue y hy
  · obtain rfl := List.mem_singleton.mp hy
    exact hx

@[simp] theorem Worker.held_push (q : Ticket → Bool) (k : Worker) (x : RegisterCommand × Option Ticket) :
    (k.push x).held q = k.held q + (x.2.any q).toNat := by
  simp only [Worker.held, Worker.push, carried_append]
  simp only [carried, weigh_cons, weigh_nil, Nat.add_zero]
  omega

/-- A client command goes from the queue into an idle register. -/
theorem Placed.client {cmd : ClientRegisterCommand} {queue : List (RegisterCommand × Option Ticket)}
    {r : AtomicRegisterState Ticket} (h : Placed s ⟨(.client cmd, some t) :: queue, r, none⟩)
    (hidle : Idle r) (id : Uuid) : Placed s ⟨queue, (clientCommand r cmd t id).1, none⟩ := by
  obtain ⟨hworks, hcb⟩ := hidle.clientCommand cmd t id
  obtain ⟨rfl, hsector⟩ : t.cmd = cmd ∧ t.sector = s := h.queue _ (List.mem_cons_self ..)
  refine ⟨fun x hx => h.queue x (List.mem_cons_of_mem _ hx), fun t' ht' => ?_, fun hnone => ?_, by simp⟩
  · obtain rfl : t = t' := Option.some.inj (hcb.symm.trans ht')
    exact ⟨hsector, hworks⟩
  · simp [hcb] at hnone

theorem Worker.held_client {cmd : ClientRegisterCommand} {queue : List (RegisterCommand × Option Ticket)}
    {r : AtomicRegisterState Ticket} (hidle : Idle r) (q : Ticket → Bool) (id : Uuid) :
    Worker.held q ⟨queue, (clientCommand r cmd t id).1, none⟩ =
      Worker.held q ⟨(.client cmd, some t) :: queue, r, none⟩ := by
  simp only [Worker.held, (hidle.clientCommand cmd t id).2, hidle.callback, carried_cons]
  simp
  omega

theorem invoked_eq_none (h : ∀ f op, .callback f op ∉ effs) : invoked effs = none := by
  rw [invoked, List.findSome?_eq_none_iff]
  rintro x hx
  cases x with
  | callback f op => exact absurd hx (h f op)
  | _ => rfl

/-- What a system command does to the register and the callback of a worker: they stay, or the callback
    goes from the register to where it is run. -/
theorem Placed.handled {cmd : SystemRegisterCommand} {callback : Option Ticket} {oc : Bool}
    {queue : List (RegisterCommand × Option Ticket)} {r r' : AtomicRegisterState Ticket}
    (h : Placed s ⟨(.system cmd, callback) :: queue, r, none⟩)
    (hh : Handled oc r cmd.header cmd.content r' effs) :
    Placed s ⟨queue, r', invoked effs⟩ ∧
      (r'.callback = r.callback ∧ invoked effs = none ∨
        ∃ t rid, r.callback = some t ∧ r'.callback = none ∧
          effs = [.callback t ⟨rid, returned r t.cmd⟩] ∧
          invoked effs = some (.respond t ⟨rid, returned r t.cmd⟩)) := by
  have hqueue : ∀ x ∈ queue, Queued s x := fun x hx => h.queue x (List.mem_cons_of_mem _ hx)
  cases hcb : r.callback with
  | none =>
    obtain ⟨hidle, hnone⟩ := hh.idle (h.idle hcb)
    refine ⟨⟨hqueue, by simp [hidle.callback], fun _ => hidle, by simp [invoked_eq_none hnone]⟩, ?_⟩
    exact Or.inl ⟨hidle.callback, invoked_eq_none hnone⟩
  | some t =>
    obtain ⟨hsector, hworks⟩ := h.callback t hcb
    rcases hh.working hworks hcb with ⟨hworks', hcb', hnone⟩ | ⟨hidle, rid, rfl⟩
    · refine ⟨⟨hqueue, fun t' ht' => ?_, by simp [hcb'], by simp [invoked_eq_none hnone]⟩, ?_⟩
      · obtain rfl : t = t' := Option.some.inj (hcb'.symm.trans ht')
        exact ⟨hsector, hworks'⟩
      · exact Or.inl ⟨hcb', invoked_eq_none hnone⟩
    · refine ⟨⟨hqueue, by simp [hidle.callback], fun _ => hidle, ?_⟩, ?_⟩
      · intro x hx
        obtain rfl : Running.respond t _ = x := Option.some.inj hx
        exact hsector
      · exact Or.inr ⟨t, rid, rfl, hidle.callback, rfl, rfl⟩

/-- No callback comes with a system command. -/
theorem Placed.system_callback {cmd : SystemRegisterCommand} {callback : Option Ticket}
    {queue : List (RegisterCommand × Option Ticket)} {r : AtomicRegisterState Ticket}
    {running : Option Running} (h : Placed s ⟨(.system cmd, callback) :: queue, r, running⟩) :
    callback = none := by
  have hhead := h.queue _ (List.mem_cons_self ..)
  cases callback with
  | none => rfl
  | some t => exact absurd hhead id

theorem Worker.held_handled {cmd : SystemRegisterCommand} {callback : Option Ticket} {oc : Bool}
    {queue : List (RegisterCommand × Option Ticket)} {r r' : AtomicRegisterState Ticket}
    (h : Placed s ⟨(.system cmd, callback) :: queue, r, none⟩)
    (hh : Handled oc r cmd.header cmd.content r' effs) (q : Ticket → Bool) :
    Worker.held q ⟨queue, r', invoked effs⟩ =
      Worker.held q ⟨(.system cmd, callback) :: queue, r, none⟩ := by
  obtain rfl : callback = none := h.system_callback
  rcases (h.handled hh).2 with ⟨hcb, hrun⟩ | ⟨t, rid, hcb, hcb', -, hrun⟩
  · simp [Worker.held, hcb, hrun]
  · simp [Worker.held, hcb, hcb', hrun, Running.ticket]

/-! ### Runs -/

theorem Conn.Replying.held {k : Conn} (h : k.Replying t) (q : Ticket → Bool) : k.held q = 0 := by
  rcases h with rfl | rfl <;> rfl

/-- A step that moves no permit. -/
theorem Sound.keep (h : Sound p w) (hguards : w'.guards = w.guards)
    (hworkers : w'.workers.length = w.workers.length) (hheld : ∀ q, w'.held q = w.held q)
    (hplaced : ∀ i k, w'.workers[i]? = some k → Placed i k) : Sound p w' := by
  refine ⟨by rw [hguards, h.guards], by rw [hworkers, h.workers], fun i g hg => ?_, hplaced⟩
  rw [hheld]
  exact h.permit i g (hguards ▸ hg)

/-- A connection that has no permit before and after the step. -/
theorem Sound.set_conn {c : ℕ} {k k' : Conn} (h : Sound p w) (hc : w.conns[c]? = some k)
    (hk : ∀ q, k'.held q = k.held q) (written : List Response) (received : ℕ) :
    Sound p { w with conns := w.conns.set c k', written, received } := by
  refine h.keep rfl rfl (fun q => ?_) h.placed
  rw [World.held, weigh_set_same (Conn.held q) hc k' (hk q), World.held]

/-- A permit goes from the semaphore to a connection. -/
theorem Sound.acquire {c permits : ℕ} (h : Sound p w) (hc : w.conns[c]? = some (.acquiring t))
    (hg : w.guards[t.sector]? = some (permits + 1)) : Sound p
      { w with conns := w.conns.set c (.sending t), guards := w.guards.set t.sector permits } := by
  refine ⟨by simp [h.guards], h.workers, fun i g hgi => ?_, h.placed⟩
  have hset := weigh_set (Conn.held (forSector i)) hc (.sending t)
  simp only [Conn.held] at hset
  simp only [World.held]
  rcases eq_or_ne t.sector i with rfl | heq
  · obtain rfl : permits = g := by
      simpa [List.getElem?_set, (List.getElem?_eq_some_iff.mp hg).1] using hgi
    have hpermit := h.permit _ _ hg
    simp only [World.held, forSector, decide_true, Bool.toNat_true] at hset hpermit ⊢
    omega
  · have hpermit := h.permit i g (by simpa [List.getElem?_set, heq] using hgi)
    simp only [World.held, forSector, heq, decide_false, Bool.toNat_false] at hset hpermit ⊢
    omega

theorem forSector_toNat (i : ℕ) (t : Ticket) : (forSector i t).toNat = if t.sector = i then 1 else 0 := by
  unfold forSector
  split <;> simp_all

/-- Permits of sector `s` go back to the semaphore. -/
theorem Sound.giveBack {n : ℕ} (h : Sound p w) (hguards : w'.guards = w.guards.modify s (· + n))
    (hworkers : w'.workers.length = w.workers.length)
    (hheld : ∀ i, w'.held (forSector i) + (if s = i then n else 0) = w.held (forSector i))
    (hplaced : ∀ i k, w'.workers[i]? = some k → Placed i k) : Sound p w' := by
  refine ⟨by simp [hguards, h.guards], by rw [hworkers, h.workers], ?_, hplaced⟩
  intro i g hgi
  have hi := hheld i
  rcases eq_or_ne s i with rfl | heq
  · obtain ⟨g', hg', rfl⟩ : ∃ g', w.guards[s]? = some g' ∧ g' + n = g := by
      simpa [hguards, List.getElem?_modify] using hgi
    have hpermit := h.permit _ _ hg'
    rw [if_pos rfl] at hi
    omega
  · have hpermit := h.permit i g (by simpa [hguards, List.getElem?_modify, heq] using hgi)
    rw [if_neg heq] at hi
    omega

/-- A permit goes from a callback that has been run back to the semaphore. -/
theorem Sound.release {queue : List (RegisterCommand × Option Ticket)} {r : AtomicRegisterState Ticket}
    (h : Sound p w) (hk : w.workers[s]? = some ⟨queue, r, some (.release t)⟩) : Sound p
      { w with
        workers := w.workers.set s ⟨queue, r, none⟩
        guards := w.guards.modify t.sector (· + 1) } := by
  have hplaced := h.placed s _ hk
  refine h.giveBack rfl (by simp) (fun i => ?_)
    (forall_set h.placed ⟨hplaced.queue, hplaced.callback, hplaced.idle, by simp⟩)
  have hset := weigh_set (Worker.held (forSector i)) hk ⟨queue, r, none⟩
  simp only [Worker.held, Option.any_some, Option.any_none, Running.ticket, Bool.toNat_false,
    forSector_toNat] at hset
  simp only [World.held]
  omega

theorem sound_step (h : Sound p w) (hs : Stepped p w e w' effs) : Sound p w' := by
  cases hs with
  | accept =>
    refine h.keep rfl rfl (fun q => ?_) h.placed
    simp [World.held, Conn.held]
  | ignore => exact h
  | take hc | refuseHmac hc | refuseSector hc | misdirect hc | hangUp hc =>
    exact h.set_conn hc (by simp [Conn.held]) _ _
  | @deliver _ cmd k _ hk | @selfMessage cmd k hk =>
    refine h.keep rfl (by simp) (fun q => ?_) (forall_set h.placed ((h.placed _ k hk).push trivial))
    rw [World.held, weigh_set_same (Worker.held q) hk _ (by simp), World.held]
  | acquire hc hg => exact h.acquire hc hg
  | @send c t k hc hk =>
    refine h.keep rfl (by simp) (fun q => ?_) (forall_set h.placed ((h.placed _ k hk).push ⟨rfl, rfl⟩))
    have hconn := weigh_set (Conn.held q) hc .reading
    have hset := weigh_set (Worker.held q) hk (k.push (.client t.cmd, some t))
    simp only [Worker.held_push, Option.any_some, Conn.held] at hset hconn
    simp only [World.held]
    omega
  | reply hc hrep => exact h.set_conn hc (by intro q; rw [hrep.held]; rfl) _ _
  | @client s uuid _ cmd t queue r hk =>
    have hidle := h.idle hk
    refine h.keep rfl (by simp) (fun q => ?_)
      (forall_set h.placed ((h.placed s _ hk).client hidle uuid))
    rw [World.held, weigh_set_same _ hk _ (Worker.held_client hidle q uuid), World.held]
  | @system s _ _ cmd _ queue r r' effs hk hsys =>
    have hplaced := h.placed s _ hk
    have hh := systemCommand_handled hsys
    refine h.keep rfl (by simp) (fun q => ?_) (forall_set h.placed (hplaced.handled hh).1)
    rw [World.held, weigh_set_same _ hk _ (Worker.held_handled hplaced hh q), World.held]
  | @respond s queue r t _ _ _ hk =>
    have hplaced := h.placed s _ hk
    refine h.keep rfl (by simp) (fun q => ?_) (forall_set h.placed
      ⟨hplaced.queue, hplaced.callback, hplaced.idle, fun x hx => ?_⟩)
    · rw [World.held, weigh_set_same (Worker.held q) hk ⟨queue, r, some (.release t)⟩ rfl, World.held]
    · obtain rfl : Running.release t = x := Option.some.inj hx
      exact hplaced.running (.respond t _) rfl
  | release hk => exact h.release hk

theorem sound_init (p : Config) : Sound p (init p) := by
  refine ⟨by simp [init], by simp [init], fun i g hg => ?_, fun i k hk => ?_⟩
  · obtain ⟨-, rfl⟩ : i < p.nSectors.toNat ∧ 1 = g := by simpa [init, List.getElem?_replicate] using hg
    have hzero : weigh (Worker.held (forSector i)) (init p).workers = 0 := by
      refine weigh_eq_zero fun k hk => ?_
      obtain ⟨j, -, rfl⟩ := List.mem_map.mp hk
      rfl
    rw [World.held, hzero]
    rfl
  · obtain ⟨j, -, rfl⟩ := List.mem_map.mp (List.mem_of_getElem? hk)
    exact ⟨by simp, by simp [buildAtomicRegister, AtomicRegisterState.new],
      fun _ => ⟨rfl, rfl, rfl, rfl⟩, by simp⟩

theorem sound {tr : Trace} (hr : ProcessRun p tr w) : Sound p w :=
  hr.invariant (I := fun _ w => Sound p w) (sound_init p)
    fun _ _ _ h _ hs => sound_step h (step_stepped hs)

end AtomicDisk.Process
