import AtomicDisk.Process.Permits

/-! Matching and unique responses. A client command that has been received is somewhere on its way (with
    its connection, in a queue, in a register or with a callback being run) or has been responded to, and
    never twice, since every step only moves it on:

        acquiring ──▶ sending ──▶ queue ──▶ register ──▶ callback ──▶ response        (accepted)
        replying ─────────────────────────────────────────────────▶ response        (refused)

    What is written is made of the ticket alone and of what the register has returned for it. -/

namespace AtomicDisk.Process
open Schemes Register Transfer

/-! ### A command has one response -/

/-- The commands at a connection that wait for a response and meet `q`. -/
def Conn.due (q : Ticket → Bool) : Conn → ℕ
  | .acquiring t | .sending t | .replyingHmac t | .replyingSector t => (q t).toNat
  | .reading | .closed => 0

def Running.due (q : Ticket → Bool) : Running → ℕ
  | .respond t _ => (q t).toNat
  | .release _ => 0

/-- The commands at a worker that wait for a response and meet `q`. -/
def Worker.due (q : Ticket → Bool) (k : Worker) : ℕ :=
  carried q k.queue + (k.register.callback.any q).toNat + (k.running.elim 0 (Running.due q))

/-- The commands that wait for a response or have been responded to, and meet `q`. -/
def World.count (q : Ticket → Bool) (w : World) : ℕ :=
  weigh (Conn.due q) w.conns + weigh (Worker.due q) w.workers +
    weigh (fun r => (q r.ticket).toNat) w.written

variable {p : Config} {w w' : World} {e : Event} {effs : List (Effect Ticket)} {q : Ticket → Bool}
  {i s : ℕ} {k : Worker} {t : Ticket} {tr : Trace}

@[simp] theorem Worker.due_push (q : Ticket → Bool) (k : Worker) (x : RegisterCommand × Option Ticket) :
    (k.push x).due q = k.due q + (x.2.any q).toNat := by
  simp only [Worker.due, Worker.push, carried_append]
  simp only [carried, weigh_cons, weigh_nil, Nat.add_zero]
  omega

theorem Conn.Replying.due {k : Conn} (h : k.Replying t) (q : Ticket → Bool) :
    k.due q = (q t).toNat := by
  rcases h with rfl | rfl <;> rfl

/-- While no callback is run, the commands that wait are the tickets that hold a permit. -/
theorem Worker.due_eq_held {queue : List (RegisterCommand × Option Ticket)}
    {r : AtomicRegisterState Ticket} (q : Ticket → Bool) (x : Option Running)
    (hx : ∀ y ∈ x, ∃ t op, y = .respond t op) : Worker.due q ⟨queue, r, x⟩ = Worker.held q ⟨queue, r, x⟩ := by
  cases x with
  | none => rfl
  | some y =>
    obtain ⟨t, op, rfl⟩ := hx y rfl
    rfl

theorem invoked_respond {x : Running} (hx : x ∈ invoked effs) : ∃ t op, x = .respond t op := by
  obtain ⟨y, -, hy⟩ := List.exists_of_findSome?_eq_some hx
  cases y with
  | callback t op => exact ⟨t, op, (Option.some.inj hy).symm⟩
  | _ => simp at hy

/-- A connection in the loop takes on a new command. -/
theorem World.count_receive {c : ℕ} {k : Conn} (hc : w.conns[c]? = some .reading)
    (hk : ∀ q, k.due q = (q t).toNat) (n : ℕ) (q : Ticket → Bool) :
    World.count q { w with conns := w.conns.set c k, received := n } = w.count q + (q t).toNat := by
  have hset := weigh_set (Conn.due q) hc k
  rw [hk] at hset
  simp only [Conn.due] at hset
  simp only [World.count]
  omega

/-- A step moves commands on, or receives a new one. -/
theorem count_after (h : Sound p w) (hs : Stepped p w e w' effs) :
    (w'.received = w.received ∧ ∀ q, w'.count q = w.count q) ∨
      ∃ c cmd ok, e = .receive c (.client cmd) ok ∧ w'.received = w.received + 1 ∧
        ∀ q, w'.count q = w.count q + (q ⟨w.received, c, cmd⟩).toNat := by
  cases hs with
  | accept =>
    refine Or.inl ⟨rfl, fun q => ?_⟩
    simp [World.count, Conn.due]
  | misdirect hc | hangUp hc =>
    refine Or.inl ⟨rfl, fun q => ?_⟩
    rw [World.count, weigh_set_same (Conn.due q) hc .closed rfl, World.count]
  | ignore => exact Or.inl ⟨rfl, fun _ => rfl⟩
  | take hc | refuseHmac hc | refuseSector hc =>
    exact Or.inr ⟨_, _, _, rfl, rfl, World.count_receive hc (fun _ => rfl) _⟩
  | deliver _ hk | selfMessage hk =>
    refine Or.inl ⟨rfl, fun q => ?_⟩
    rw [World.count, weigh_set_same (Worker.due q) hk _ (by simp), World.count]
  | @acquire c permits t hc =>
    refine Or.inl ⟨rfl, fun q => ?_⟩
    rw [World.count, weigh_set_same (Conn.due q) hc (.sending t) rfl, World.count]
  | @send c t k hc hk =>
    refine Or.inl ⟨rfl, fun q => ?_⟩
    have hconn := weigh_set (Conn.due q) hc .reading
    have hset := weigh_set (Worker.due q) hk (k.push (.client t.cmd, some t))
    simp only [Worker.due_push, Option.any_some, Conn.due] at hset hconn
    simp only [World.count]
    omega
  | @reply c k t bytes hc hrep =>
    refine Or.inl ⟨rfl, fun q => ?_⟩
    have hset := weigh_set (Conn.due q) hc .reading
    rw [hrep.due] at hset
    simp only [Conn.due] at hset
    simp only [World.count, weigh_append, weigh_cons, weigh_nil, Nat.add_zero]
    omega
  | @client s uuid _ cmd t queue r hk =>
    refine Or.inl ⟨rfl, fun q => ?_⟩
    have hsame : Worker.due q ⟨queue, (clientCommand r cmd t uuid).1, none⟩ =
        Worker.due q ⟨(.client cmd, some t) :: queue, r, none⟩ := by
      rw [Worker.due_eq_held q none (by simp), Worker.due_eq_held q none (by simp),
        Worker.held_client (h.idle hk) q uuid]
    rw [World.count, weigh_set_same _ hk _ hsame, World.count]
  | @system s _ _ cmd callback queue r r' effs hk hsys =>
    refine Or.inl ⟨rfl, fun q => ?_⟩
    have hsame : Worker.due q ⟨queue, r', invoked effs⟩ =
        Worker.due q ⟨(.system cmd, callback) :: queue, r, none⟩ := by
      rw [Worker.due_eq_held q none (by simp), Worker.due_eq_held q _ fun x => invoked_respond,
        Worker.held_handled (h.placed s _ hk) (systemCommand_handled hsys) q]
    rw [World.count, weigh_set_same _ hk _ hsame, World.count]
  | @respond s queue r t opSuccess rid msgType hk =>
    -- the command goes from the callback to what has been written
    refine Or.inl ⟨rfl, fun q => ?_⟩
    have hset := weigh_set (Worker.due q) hk ⟨queue, r, some (.release t)⟩
    simp only [Worker.due, Option.elim_some, Running.due] at hset
    simp only [World.count, weigh_append, weigh_cons, weigh_nil, Nat.add_zero]
    omega
  | @release s queue r t hk =>
    refine Or.inl ⟨rfl, fun q => ?_⟩
    rw [World.count, weigh_set_same (Worker.due q) hk ⟨queue, r, none⟩ rfl, World.count]

/-- The ticket is that of the client command received as number `n`. -/
def numbered (n : ℕ) (t : Ticket) : Bool := decide (t.number = n)

/-- A client command is in one place, once it has been received. -/
theorem count_le (hr : ProcessRun p tr w) (n : ℕ) :
    w.count (numbered n) ≤ if n < w.received then 1 else 0 := by
  refine hr.invariant (I := fun _ w => w.count (numbered n) ≤ if n < w.received then 1 else 0) ?_ ?_
  · have hzero : weigh (Worker.due (numbered n)) (init p).workers = 0 := by
      refine weigh_eq_zero fun k hk => ?_
      obtain ⟨j, -, rfl⟩ := List.mem_map.mp hk
      rfl
    rw [World.count, hzero]
    exact Nat.zero_le _
  · intro tr x hr ih _ hs
    rcases count_after (sound hr) (step_stepped hs) with ⟨hrec, hcount⟩ | ⟨c, cmd, ok, -, hrec, hcount⟩
    · rw [hcount, hrec]
      exact ih
    · rw [hcount, hrec]
      by_cases heq : x.pre.received = n
      · -- the command received now has not been counted before
        rw [if_neg (by omega)] at ih
        rw [if_pos (by omega)]
        simp only [numbered, heq, decide_true, Bool.toNat_true] at ih ⊢
        omega
      · simp only [numbered, heq, decide_false, Bool.toNat_false] at ih ⊢
        split_ifs at ih ⊢ <;> omega

/-! ### Where tickets come from -/

/-- The ticket is that of a client command with a valid HMAC and sector index. -/
def Accepted (p : Config) (tr : Trace) (t : Ticket) : Prop :=
  ∃ x ∈ tr, x.event = .receive t.conn (.client t.cmd) true ∧ x.pre.received = t.number ∧
    t.cmd.header.sectorIdx < p.nSectors

/-- The ticket is that of a client command without. -/
def Refused (p : Config) (tr : Trace) (t : Ticket) : Prop :=
  ∃ x ∈ tr, ∃ ok, x.event = .receive t.conn (.client t.cmd) ok ∧ x.pre.received = t.number ∧
    ¬ (ok = true ∧ t.cmd.header.sectorIdx < p.nSectors)

/-- The register has completed the command with `op`, which is of its kind. -/
def Completed (tr : Trace) (t : Ticket) (op : OperationSuccess) : Prop :=
  (∃ y ∈ tr, .callback t op ∈ y.out) ∧ ∃ r : AtomicRegisterState Ticket, op.opReturn = returned r t.cmd

theorem Accepted.append {l : Trace} : Accepted p tr t → Accepted p (tr ++ l) t
  | ⟨x, hx, hacc⟩ => ⟨x, List.mem_append_left _ hx, hacc⟩

theorem Refused.append {l : Trace} : Refused p tr t → Refused p (tr ++ l) t
  | ⟨x, hx, href⟩ => ⟨x, List.mem_append_left _ hx, href⟩

theorem Completed.append {l : Trace} {op : OperationSuccess} : Completed tr t op → Completed (tr ++ l) t op
  | ⟨⟨y, hy, hmem⟩, hret⟩ => ⟨⟨y, List.mem_append_left _ hy, hmem⟩, hret⟩

/-- What a connection is about to do is for a command it has received. -/
def Conn.Traced (p : Config) (tr : Trace) : Conn → Prop
  | .acquiring t | .sending t => Accepted p tr t
  | .replyingHmac t | .replyingSector t => Refused p tr t
  | .reading | .closed => True

/-- What a worker has is for accepted commands, and it responds with what its register has returned. -/
structure Worker.Traced (p : Config) (tr : Trace) (k : Worker) : Prop where
  queue : ∀ x ∈ k.queue, ∀ t ∈ x.2, Accepted p tr t
  callback : ∀ t ∈ k.register.callback, Accepted p tr t
  respond : ∀ t op, k.running = some (.respond t op) → Accepted p tr t ∧ Completed tr t op

/-- The response is the one to an accepted command. -/
structure Answers (p : Config) (tr : Trace) (r : Response) : Prop where
  accepted : Accepted p tr r.ticket
  conn : r.conn = r.ticket.conn
  bytes : ∃ op rid msgType, Completed tr r.ticket op ∧
    getRidAndMsgType (.client r.ticket.cmd) = some (rid, msgType) ∧
    r.bytes = constructValidResponse p.hmac op p.hmacClientKey msgType rid

structure Traced (p : Config) (tr : Trace) (w : World) : Prop where
  conns : ∀ (c : ℕ) (k : Conn), w.conns[c]? = some k → k.Traced p tr
  workers : ∀ (i : ℕ) (k : Worker), w.workers[i]? = some k → k.Traced p tr
  written : ∀ r ∈ w.written, Refused p tr r.ticket ∨ Answers p tr r

theorem Conn.Traced.append {k : Conn} {l : Trace} (h : k.Traced p tr) : k.Traced p (tr ++ l) := by
  cases k with
  | acquiring t | sending t => exact Accepted.append h
  | replyingHmac t | replyingSector t => exact Refused.append h
  | reading | closed => trivial

theorem Worker.Traced.append {l : Trace} (h : k.Traced p tr) : k.Traced p (tr ++ l) :=
  ⟨fun x hx t ht => (h.queue x hx t ht).append, fun t ht => (h.callback t ht).append,
    fun t op hrun => ⟨(h.respond t op hrun).1.append, (h.respond t op hrun).2.append⟩⟩

theorem Answers.append {r : Response} {l : Trace} (h : Answers p tr r) : Answers p (tr ++ l) r := by
  obtain ⟨op, rid, msgType, hop, hmsg, hbytes⟩ := h.bytes
  exact ⟨h.accepted.append, h.conn, op, rid, msgType, hop.append, hmsg, hbytes⟩

theorem Traced.append {l : Trace} (h : Traced p tr w) : Traced p (tr ++ l) w :=
  ⟨fun c k hk => (h.conns c k hk).append, fun i k hk => (h.workers i k hk).append,
    fun r hr => (h.written r hr).imp Refused.append Answers.append⟩

theorem Worker.Traced.push (h : k.Traced p tr) {x : RegisterCommand × Option Ticket}
    (hx : ∀ t ∈ x.2, Accepted p tr t) : (k.push x).Traced p tr := by
  refine ⟨fun y hy => ?_, h.callback, h.respond⟩
  rcases List.mem_append.mp hy with hy | hy
  · exact h.queue y hy
  · obtain rfl := List.mem_singleton.mp hy
    exact hx

theorem traced_step {x : Entry World Event (List (Effect Ticket))} (hsound : Sound p x.pre)
    (h : Traced p tr x.pre) (hs : Stepped p x.pre x.event x.post x.out) :
    Traced p (tr ++ [x]) x.post := by
  have hx : x ∈ tr ++ [x] := by simp
  replace h : Traced p (tr ++ [x]) x.pre := h.append
  generalize tr ++ [x] = tr' at h hx
  obtain ⟨w, e, effs, w'⟩ := x
  simp only at hsound h hs ⊢
  cases hs with
  | accept =>
    refine ⟨fun c k hk => ?_, h.workers, h.written⟩
    rcases List.mem_append.mp (List.mem_of_getElem? hk) with hk | hk
    · obtain ⟨c', hc'⟩ := List.getElem?_of_mem hk
      exact h.conns c' k hc'
    · obtain rfl := List.mem_singleton.mp hk
      trivial
  | misdirect | hangUp => exact ⟨forall_set h.conns trivial, h.workers, h.written⟩
  | ignore => exact h
  | take hc hlt =>
    have hacc : Accepted p tr' ⟨w.received, _, _⟩ := ⟨_, hx, rfl, rfl, hlt⟩
    exact ⟨forall_set h.conns hacc, h.workers, h.written⟩
  | refuseHmac =>
    have href : Refused p tr' ⟨w.received, _, _⟩ := ⟨_, hx, _, rfl, rfl, by simp⟩
    exact ⟨forall_set h.conns href, h.workers, h.written⟩
  | refuseSector hc hge =>
    have href : Refused p tr' ⟨w.received, _, _⟩ := ⟨_, hx, _, rfl, rfl, fun h => hge h.2⟩
    exact ⟨forall_set h.conns href, h.workers, h.written⟩
  | deliver _ hk | selfMessage hk =>
    exact ⟨h.conns, forall_set h.workers ((h.workers _ _ hk).push (by simp)), h.written⟩
  | acquire hc hg =>
    have hacc : Accepted p tr' _ := h.conns _ _ hc
    exact ⟨forall_set h.conns hacc, h.workers, h.written⟩
  | send hc hk =>
    refine ⟨forall_set h.conns trivial, forall_set h.workers ((h.workers _ _ hk).push ?_), h.written⟩
    intro t ht
    obtain rfl := Option.some.inj ht
    exact h.conns _ _ hc
  | reply hc hrep =>
    refine ⟨forall_set h.conns trivial, h.workers, fun r hr => ?_⟩
    rcases List.mem_append.mp hr with hr | hr
    · exact h.written r hr
    · obtain rfl := List.mem_singleton.mp hr
      have hconn := h.conns _ _ hc
      rcases hrep with rfl | rfl <;> exact Or.inl hconn
  | @client s uuid _ cmd t queue r hk =>
    have hworker := h.workers s _ hk
    refine ⟨h.conns, forall_set h.workers ⟨fun x hx => ?_, fun t' ht' => ?_, by simp⟩, h.written⟩
    · exact hworker.queue x (List.mem_cons_of_mem _ hx)
    · have hcb := ((hsound.idle hk).clientCommand cmd t uuid).2
      obtain rfl : t = t' := Option.some.inj (hcb.symm.trans ht')
      exact hworker.queue _ (List.mem_cons_self ..) t rfl
  | @system s _ _ cmd _ queue r r' effs hk hsys =>
    have hworker := h.workers s _ hk
    have hqueue : ∀ x ∈ queue, ∀ t ∈ x.2, Accepted p tr' t := fun x hx =>
      hworker.queue x (List.mem_cons_of_mem _ hx)
    refine ⟨h.conns, forall_set h.workers ?_, h.written⟩
    have hhandled := (hsound.placed s _ hk).handled (systemCommand_handled hsys)
    rcases hhandled.2 with ⟨hcb, hrun⟩ | ⟨t, rid, hcb, hcb', heffs, hrun⟩
    · exact ⟨hqueue, fun t ht => hworker.callback t (hcb ▸ ht), by simp [hrun]⟩
    · refine ⟨hqueue, by simp [hcb'], fun t' op hresp => ?_⟩
      obtain ⟨rfl, rfl⟩ : t = t' ∧ _ = op := by simpa [hrun] using hresp
      exact ⟨hworker.callback t hcb, ⟨_, hx, by simp [heffs]⟩, r, rfl⟩
  | respond hk hmsg =>
    have hworker := h.workers _ _ hk
    obtain ⟨hacc, hdone⟩ := hworker.respond _ _ rfl
    refine ⟨h.conns, forall_set h.workers ⟨hworker.queue, hworker.callback, by simp⟩, fun r hr => ?_⟩
    rcases List.mem_append.mp hr with hr | hr
    · exact h.written r hr
    · obtain rfl := List.mem_singleton.mp hr
      exact Or.inr ⟨hacc, rfl, _, _, _, hdone, hmsg, rfl⟩
  | release hk =>
    have hworker := h.workers _ _ hk
    exact ⟨h.conns, forall_set h.workers ⟨hworker.queue, hworker.callback, by simp⟩, h.written⟩

theorem traced (hr : ProcessRun p tr w) : Traced p tr w := by
  refine hr.invariant ?_ fun _ _ hr h _ hs => traced_step (sound hr) h (step_stepped hs)
  refine ⟨by simp [init], fun i k hk => ?_, by simp [init]⟩
  obtain ⟨j, -, rfl⟩ := List.mem_map.mp (List.mem_of_getElem? hk)
  exact ⟨by simp, by simp [buildAtomicRegister, AtomicRegisterState.new], by simp⟩

/-! ### Responses -/

theorem received_after (h : Stepped p w e w' effs) : w.received ≤ w'.received := by
  cases h <;> simp

theorem received_client {c : ℕ} {cmd : ClientRegisterCommand} {ok : Bool}
    (h : Stepped p w (.receive c (.client cmd) ok) w' effs) : w'.received = w.received + 1 := by
  cases h <;> rfl

/-- The number of a client command tells where it was received. -/
theorem receive_unique (hr : ProcessRun p tr w) {x y : Entry World Event (List (Effect Ticket))}
    {c c' : ℕ} {cmd cmd' : ClientRegisterCommand} {ok ok' : Bool} (hx : x ∈ tr) (hy : y ∈ tr)
    (hxe : x.event = .receive c (.client cmd) ok) (hye : y.event = .receive c' (.client cmd') ok')
    (hnumber : x.pre.received = y.pre.received) : x = y := by
  obtain ⟨-, -, -, hxs⟩ := hr.entry hx
  obtain ⟨-, -, -, hys⟩ := hr.entry hy
  have hxpost := received_client (hxe ▸ step_stepped hxs)
  have hypost := received_client (hye ▸ step_stepped hys)
  have hmono := (hr.monotone World.received fun _ _ _ _ hs => received_after (step_stepped hs)).2
  obtain ⟨l₁, l₂, rfl⟩ := List.append_of_mem hx
  obtain ⟨-, hcons, hbefore⟩ := List.pairwise_append.mp hmono
  rcases List.mem_append.mp hy with hy | hy
  · have := hbefore y hy x (List.mem_cons_self ..)
    omega
  · rcases List.mem_cons.mp hy with rfl | hy
    · rfl
    · have := (List.pairwise_cons.mp hcons).1 y hy
      omega

/-- A response with status Ok, as the protocol has it. -/
def okFrame (p : Config) (type : UInt8) (rid : UInt64) (content : List UInt8) : List UInt8 :=
  let buf := magicNumber ++ [0, 0, 0x00, type] ++ toBeBytes rid ++ content
  buf ++ p.hmac.tag p.hmacClientKey buf

/-- The response is that to `cmd`: for a read with the data that the register has returned to the
    callback, for a write without content. -/
def RespondsTo (p : Config) (tr : Trace) (cmd : ClientRegisterCommand) (r : Response) : Prop :=
  match cmd.content with
  | .read => ∃ data, (∃ y ∈ tr, ∃ rid, .callback r.ticket ⟨rid, .read data⟩ ∈ y.out) ∧
    r.bytes = okFrame p 0x41 cmd.header.requestIdentifier data.data
  | .write _ => r.bytes = okFrame p 0x42 cmd.header.requestIdentifier []

theorem Answers.respondsTo {r : Response} (h : Answers p tr r) : RespondsTo p tr r.ticket.cmd r := by
  obtain ⟨⟨rid', ret⟩, rid, msgType, ⟨⟨y, hy, hmem⟩, r', hret⟩, hmsg, hbytes⟩ := h.bytes
  obtain ⟨conn, ⟨number, origin, header, content⟩, bytes⟩ := r
  obtain rfl : ret = returned r' ⟨header, content⟩ := hret
  cases content with
  | read =>
    obtain ⟨rfl, rfl⟩ : header.requestIdentifier = rid ∧ 0x01 = msgType := by
      simpa [getRidAndMsgType] using hmsg
    exact ⟨r'.readval, ⟨y, hy, rid', hmem⟩, hbytes⟩
  | write data =>
    obtain ⟨rfl, rfl⟩ : header.requestIdentifier = rid ∧ 0x02 = msgType := by
      simpa [getRidAndMsgType] using hmsg
    exact hbytes

/-- CORRECT (one operation at a time, matching and unique responses): in every run of a process, with any
    number of connections, a register is given a client command only when it is idle; it never reads and
    writes at once; and a client command with a valid HMAC and sector index gets at most one response,
    on the connection it came from, with status Ok, its request identifier, and the type and content
    that its kind calls for. -/
theorem one_operation_at_a_time (hr : ProcessRun p tr w) :
    (∀ x ∈ tr, ∀ s uuid order, x.event = .work s uuid order → ∀ k cmd callback queue,
      x.pre.workers[s]? = some k → k.queue = (.client cmd, callback) :: queue → Idle k.register) ∧
    (∀ k ∈ w.workers, ¬ (k.register.reading = true ∧ k.register.writing = true)) ∧
    ∀ x ∈ tr, ∀ c cmd, x.event = .receive c (.client cmd) true → cmd.header.sectorIdx < p.nSectors →
      w.written.countP (fun r => decide (r.ticket.number = x.pre.received)) ≤ 1 ∧
      ∀ r ∈ w.written, r.ticket.number = x.pre.received → r.conn = c ∧ RespondsTo p tr cmd r := by
  refine ⟨fun x hx s uuid order _ k cmd callback queue hk hqueue => ?_, fun k hk => ?_,
    fun x hx c cmd hevent hlt => ⟨?_, fun r hrw hnumber => ?_⟩⟩
  · obtain ⟨l, hpre, -, -⟩ := hr.entry hx
    obtain ⟨queue', r, running⟩ := k
    obtain rfl : queue' = _ := hqueue
    exact (sound hpre).idle hk
  · obtain ⟨i, hi⟩ := List.getElem?_of_mem hk
    have hplaced := (sound hr).placed i k hi
    rintro ⟨hread, hwrite⟩
    cases hcb : k.register.callback with
    | none => simp [(hplaced.idle hcb).reading] at hread
    | some t => simpa [hread, hwrite] using (hplaced.callback t hcb).2.not_both
  · have hcount := count_le hr x.pre.received
    rw [World.count, weigh_toNat] at hcount
    simp only [numbered] at hcount
    split_ifs at hcount <;> omega
  · rcases (traced hr).written r hrw with ⟨y, hy, ok, hye, hyn, hnot⟩ | hans
    · -- a refused command is another one
      obtain rfl := receive_unique hr hx hy hevent hye (hnumber.symm.trans hyn.symm)
      rw [hevent] at hye
      obtain ⟨rfl, hcmd, rfl⟩ : c = r.ticket.conn ∧ cmd = r.ticket.cmd ∧ true = ok := by simpa using hye
      exact absurd ⟨rfl, hcmd ▸ hlt⟩ hnot
    · obtain ⟨y, hy, hye, hyn, -⟩ := hans.accepted
      obtain rfl := receive_unique hr hx hy hevent hye (hnumber.symm.trans hyn.symm)
      rw [hevent] at hye
      obtain ⟨rfl, rfl⟩ : c = r.ticket.conn ∧ cmd = r.ticket.cmd := by simpa using hye
      exact ⟨hans.conn, hans.respondsTo⟩

/-- A process that is the only one, with one sector. -/
def oneSector : Config where
  hmac := sumHmac
  hmacClientKey := []
  nSectors := 1
  selfIdent := 1
  processesCount := 1
  overflowChecks := true
  sectors _ := (.zeros, 0, 0)

/-- A client reads sector 0, as request 7. -/
def readRequest : ClientRegisterCommand := ⟨⟨7, 0⟩, .read⟩

/-- The read, from the connection to the response. -/
def respondedRead : List Event :=
  [.accept, .receive 0 (.client readRequest) true, .acquire 0, .send 0, .work 0 (uuid 1) .asIs,
    .selfMessage ⟨⟨1, uuid 1, 0⟩, .value 0 0 .zeros⟩, .work 0 (uuid 1) .asIs,
    .selfMessage ⟨⟨1, uuid 1, 0⟩, .ack⟩, .work 0 (uuid 1) .asIs, .respond 0, .release 0]

section run
set_option maxRecDepth 40000

/-- It is responded to on its connection. -/
theorem respondedRead_matches : ∃ tr w r, ProcessRun oneSector tr w ∧ w.written = [r] ∧ r.conn = 0 ∧
    RespondsTo oneSector tr readRequest r := by
  obtain ⟨tr, w, hr, hobs⟩ := Run.exists_of_exec (step oneSector) (fun _ _ => True) (init oneSector)
    respondedRead (fun tr w => (tr[1]?.any fun x => match x.event with
      | .receive 0 (.client cmd) true => decide (cmd = readRequest) && decide (x.pre.received = 0)
      | _ => false) && decide (w.written.map (fun r => r.ticket.number) = [0])) (by decide +kernel)
  rw [Bool.and_eq_true, decide_eq_true_eq] at hobs
  obtain ⟨hreceive, hwritten⟩ := hobs
  obtain ⟨r, hr1, hnumber⟩ := List.map_eq_singleton_iff.mp hwritten
  cases hx : tr[1]? with
  | none => simp [hx] at hreceive
  | some x =>
    rw [hx, Option.any_some] at hreceive
    split at hreceive
    · rename_i cmd hevent
      rw [Bool.and_eq_true, decide_eq_true_eq, decide_eq_true_eq] at hreceive
      obtain ⟨rfl, hzero⟩ := hreceive
      obtain ⟨-, hmatch⟩ := (one_operation_at_a_time hr).2.2 x (List.mem_of_getElem? hx) 0 readRequest
        hevent (by decide)
      obtain ⟨hconn, hresp⟩ := hmatch r (by simp [hr1]) (hnumber.trans hzero.symm)
      exact ⟨tr, w, r, hr, hr1, hconn, hresp⟩
    · simp at hreceive

end run

end AtomicDisk.Process
