import AtomicDisk.Cluster.Refinement
import AtomicDisk.Schemes.Intervals

/-! What clients see. For a client an operation begins when its command has been read from the connection, and
    it ends when the response is written; in between the command waits for the permit and in the queue, and the
    response for the callback. For the worker it begins with `client_command` and ends with the handler that
    invokes the callback:

        connection:  read ───▶ acquiring ──▶ sending ──▶ queue           respond
        worker:                                        client_command ──▶ … ──▶ handler

    A client command is named by the process that has received it, by how often that had been started, and by
    its number there; `names` says which operation it has become. -/

namespace AtomicDisk.Cluster
open Schemes Register Transfer
open Process (Ticket Worker)
open Node (Slot Turn Renames Kept MetBy Numbered)
open Storage (Ledger fileAt Newest)

/-- The name of a client command. -/
structure ClientOp where
  process : UInt8
  start : ℕ
  number : ℕ
  deriving DecidableEq

/-- The callback that writes its response in a step: what it responds to, and with what. -/
def answeredBy (idx : SectorIdx) (e : Node.Event) (x x' : Option Slot) : Option (Ticket × OperationSuccess) :=
  match e, x, x' with
  | .task (.run (.respond s)), some x, some _ =>
    if s = idx.toNat then
      match x.worker.running with
      | some (.respond t op) => some (t, op)
      | _ => none
    else none
  | _, _, _ => none

/-- What clients see of sector `idx` in a step of process `i`, which has been started `n` times. -/
def seen (idx : SectorIdx) (i : UInt8) (n : ℕ) (e : Node.Event) (w w' : Node.World) :
    List (HEvent ClientOp SectorVec) :=
  ((Node.taken w' e).filter fun t => decide (t.cmd.header.sectorIdx = idx)).toList.map
      (fun t => .invoke ⟨i, n, t.number⟩ (callOf t.cmd.content)) ++
    (answeredBy idx e (w.slot idx.toNat) (w'.slot idx.toNat)).toList.map
      fun y => .respond ⟨i, n, y.1.number⟩ (returnOf y.2.opReturn)

/-- The operation that a client command becomes in a step. -/
def named (idx : SectorIdx) (i : UInt8) (n : ℕ) (e : Node.Event) (x x' : Option Slot) : List (Uuid × ClientOp) :=
  match e, x, x' with
  | .task (.run (.work s u _)), some x, some _ =>
    if s = idx.toNat then
      match x.worker.queue with
      | (.client _, some t) :: _ => [(u, ⟨i, n, t.number⟩)]
      | _ => []
    else []
  | _, _, _ => []

/-- What clients see of sector `idx` in a step. -/
def seenIn (idx : SectorIdx) (x : Entry World Event Unit) : List (HEvent ClientOp SectorVec) :=
  match x.event with
  | .node i e => seen idx i (x.pre.started i) e (x.pre.nodes i) (x.post.nodes i)
  -- which bytes were read does not matter
  | .read i c _ => seen idx i (x.pre.started i) (.read c []) (x.pre.nodes i) (x.post.nodes i)
  | _ => []

def namedIn (idx : SectorIdx) (x : Entry World Event Unit) : List (Uuid × ClientOp) :=
  match x.event with
  | .node i e => named idx i (x.pre.started i) e ((x.pre.nodes i).slot idx.toNat) ((x.post.nodes i).slot idx.toNat)
  | _ => []

/-- The commands for sector `idx` that processes read from clients, and the responses that they write. -/
def clientHistory (idx : SectorIdx) (tr : Trace) : List (HEvent ClientOp SectorVec) := tr.flatMap (seenIn idx)

/-- The operations that the commands of clients have become. -/
def names (idx : SectorIdx) (tr : Trace) : List (Uuid × ClientOp) := tr.flatMap (namedIn idx)

variable {p : Config} {C : EntryCondition} {idx : SectorIdx} {i j : UInt8} {n : ℕ} {w w' : World}
  {v v' : Node.World} {e : Node.Event} {x x' : Slot} {t : Ticket} {op : OperationSuccess} {u : Uuid}
  {tr : Trace}

/-! ### One step of the worker -/

/-- The worker begins with a client command. -/
structure Begins (idx : SectorIdx) (e : Node.Event) (v v' : Node.World) (u : Uuid) (t : Ticket) : Prop where
  invokes : served idx e (v.slot idx.toNat) (v'.slot idx.toNat) = [.invoke u (callOf t.cmd.content)]
  names : ∀ i n, named idx i n e (v.slot idx.toNat) (v'.slot idx.toNat) = [(u, ⟨i, n, t.number⟩)]
  begun : Node.begun v e = some t
  draws : draws v e = some u
  waits : v.Waits t
  sector : t.cmd.header.sectorIdx = idx
  taken : Node.taken v' e = none
  slot : ∀ x', v'.slot idx.toNat = some x' → x'.worker.register.callback = some t ∧
    x'.worker.register.opId = some u ∧ x'.worker.running = none

/-- The worker begins with nothing: the callback is one it had, and a response is due for a callback. -/
structure GoesOn (idx : SectorIdx) (e : Node.Event) (v v' : Node.World) : Prop where
  invokes : ∀ u c, .invoke u c ∉ served idx e (v.slot idx.toNat) (v'.slot idx.toNat)
  names : ∀ i n, named idx i n e (v.slot idx.toNat) (v'.slot idx.toNat) = []
  callback : ∀ x', v'.slot idx.toNat = some x' → ∀ t, x'.worker.register.callback = some t →
    ∃ x, v.slot idx.toNat = some x ∧ x.worker.register.callback = some t ∧
      x'.worker.register.opId = x.worker.register.opId
  running : ∀ x', v'.slot idx.toNat = some x' → ∀ t op, x'.worker.running = some (.respond t op) →
    ∃ x, v.slot idx.toNat = some x ∧ (x.worker.running = some (.respond t op) ∨
      x.worker.register.callback = some t ∧
        .respond (x.worker.register.opId.getD (uuid 0)) (returnOf op.opReturn) ∈
          served idx e (v.slot idx.toNat) (v'.slot idx.toNat))

theorem named_quiet {a b : Option Slot} (h : Node.Quiet idx.toNat e) (i : UInt8) (n : ℕ) :
    named idx i n e a b = [] := by
  unfold named
  split
  · rename_i s u order x x'
    rw [if_neg]
    rintro rfl
    exact h u order rfl
  · rfl

theorem named_none_right {a : Option Slot} (i : UInt8) (n : ℕ) : named idx i n e a none = [] := by
  unfold named
  split
  · rename_i heq
    cases heq
  · rfl

/-- The worker is gone. -/
theorem goesOn_none (h : v'.slot idx.toNat = none) : GoesOn idx e v v' := by
  refine ⟨?_, ?_, ?_, ?_⟩
  · rw [h, served_none_right]
    simp
  · rw [h]
    exact named_none_right
  · simp [h]
  · simp [h]

/-- The worker has the same register, and no callback to run that it had not. -/
theorem goesOn_quiet (hquiet : Node.Quiet idx.toNat e) (hx : v.slot idx.toNat = some x)
    (hx' : v'.slot idx.toNat = some x') (hregister : x'.worker.register = x.worker.register)
    (hrunning : ∀ t op, x'.worker.running = some (.respond t op) → x.worker.running = some (.respond t op)) :
    GoesOn idx e v v' := by
  refine ⟨by simp [served_quiet hquiet], fun i n => named_quiet hquiet i n, fun y hy t ht => ?_,
    fun y hy t op hop => ?_⟩
  · obtain rfl := Option.some.inj (hx'.symm.trans hy)
    exact ⟨x, hx, hregister ▸ ht, by rw [hregister]⟩
  · obtain rfl := Option.some.inj (hx'.symm.trans hy)
    exact ⟨x, hx, Or.inl (hrunning t op hop)⟩

/-- A handler of system commands invokes the callback it has, if any. -/
theorem handled_callback {oc : Bool} {r r' : AtomicRegisterState Ticket} {h : SystemCommandHeader}
    {c : SystemRegisterCommandContent} {effs : List (Effect Ticket)} (hh : Handled oc r h c r' effs) :
    (∀ t, r'.callback = some t → r.callback = some t) ∧ r'.opId = r.opId ∧
      ∀ t op, Process.invoked effs = some (.respond t op) → r.callback = some t := by
  refine ⟨?_, hh.ids.1, ?_⟩
  · cases hh <;> simp
  · cases hh with
    | ackRead _ _ _ _ hcb | ackWrite _ _ _ _ _ hcb =>
      intro t op hop
      simp only [Process.invoked, List.findSome?_cons, Option.some.injEq, Process.Running.respond.injEq] at hop
      rw [hcb, hop.1]
    | _ => simp [Process.invoked]

/-- `client_command` is called. -/
theorem begins_client {order : IterOrder UInt8 ReadEntry} {cmd : ClientRegisterCommand}
    {queue : List (RegisterCommand × Option Ticket)} {r : AtomicRegisterState Ticket} {todo : List (Effect Ticket)}
    (hmanned : Node.Manned (p.node i) v)
    (hx : v.slot idx.toNat = some ⟨⟨(.client cmd, some t) :: queue, r, none⟩, [], none⟩)
    (hx' : v'.slot idx.toNat = some ⟨⟨queue, (clientCommand r cmd t u).1, none⟩, todo, none⟩) :
    Begins idx (.task (.run (.work idx.toNat u order))) v v' u t := by
  obtain ⟨rfl, hsector, -⟩ := client_sector hmanned hx
  refine ⟨?_, fun i n => ?_, ?_, draws_client hx, Node.waits_of_queue hx (List.mem_cons_self ..), hsector, rfl,
    fun y hy => ?_⟩
  · simp [served, hx, hx']
  · simp [named, hx, hx']
  · obtain ⟨dir, phase⟩ := v
    cases phase with
    | up l =>
      obtain ⟨-, hk, -⟩ := Node.slot_eq_some.mp hx
      simp [Node.begun, Process.begunBy, Process.begun, hk]
    | recovering => cases hx
    | down => cases hx
  · obtain rfl := Option.some.inj (hx'.symm.trans hy)
    refine ⟨?_, clientCommand_opId .., rfl⟩
    cases hc : t.cmd.content <;> simp [clientCommand, hc]

/-- A handler of system commands is run. -/
theorem goesOn_system {order : IterOrder UInt8 ReadEntry} {cmd : SystemRegisterCommand} {callback : Option Ticket}
    {queue : List (RegisterCommand × Option Ticket)} {r r' : AtomicRegisterState Ticket}
    {effs : List (Effect Ticket)} {oc : Bool} (hsys : systemCommand oc order r cmd = some (r', effs))
    (hx : v.slot idx.toNat = some ⟨⟨(.system cmd, callback) :: queue, r, none⟩, [], none⟩)
    (hx' : v'.slot idx.toNat = some ⟨⟨queue, r', Process.invoked effs⟩, effs, none⟩) :
    GoesOn idx (.task (.run (.work idx.toNat u order))) v v' := by
  obtain ⟨hcb, hid, hinvoked⟩ := handled_callback (systemCommand_handled hsys)
  have hserved : served idx (.task (.run (.work idx.toNat u order))) (v.slot idx.toNat) (v'.slot idx.toNat) =
      responded (r.opId.getD (uuid 0)) (Process.invoked effs) := by
    simp [served, hx, hx']
  refine ⟨?_, fun i n => by simp [named, hx, hx'], fun y hy t ht => ?_, fun y hy t op hop => ?_⟩
  · rw [hserved]
    unfold responded
    split <;> simp
  · obtain rfl := Option.some.inj (hx'.symm.trans hy)
    exact ⟨_, hx, hcb t ht, hid⟩
  · obtain rfl := Option.some.inj (hx'.symm.trans hy)
    have hrunning : Process.invoked effs = some (.respond t op) := hop
    refine ⟨_, hx, Or.inr ⟨hinvoked t op hop, ?_⟩⟩
    rw [hserved, hrunning]
    exact List.mem_singleton_self _

/-- What the worker of a sector does in a step of its process. -/
theorem slot_news (idx : SectorIdx) {o : Unit} (hkept : Kept (p.node i) v)
    (hs : Node.step (p.node i) p.hmacSystemKey v e = some (v', o)) :
    (∃ u t, Begins idx e v v' u t) ∨ GoesOn idx e v v' := by
  obtain ⟨ledger, calls, hstored⟩ := hkept.stored
  obtain ⟨d, hd, -⟩ := hkept.durable idx
  rcases Node.slot_step hstored hkept.full hkept.manned (Node.step_stepped hs) hd with
    ⟨hturn, -⟩ | ⟨k, sector, todo, hren⟩
  · generalize hx' : v'.slot idx.toNat = y' at hturn
    generalize hx : v.slot idx.toNat = y at hturn
    cases hturn with
    | empty | dies => exact Or.inr (goesOn_none hx')
    | same hquiet => exact Or.inr (goesOn_quiet hquiet hx hx' rfl fun _ _ hop => hop)
    | running hquiet hrunning =>
      exact Or.inr (goesOn_quiet hquiet hx hx' rfl fun t op hop => absurd hop (hrunning t op))
    | arrives harrives =>
      refine Or.inr (goesOn_quiet ?_ hx hx' rfl fun _ _ hop => hop)
      cases harrives <;> simp [Node.Quiet]
    | @client u order cmd t queue r => exact Or.inl ⟨u, t, begins_client hkept.manned hx hx'⟩
    | system hsys => exact Or.inr (goesOn_system hsys hx hx')
    | done | begins | advance | written =>
      exact Or.inr (goesOn_quiet (by simp [Node.Quiet]) hx hx' rfl fun _ _ hop => hop)
    | starts =>
      refine Or.inr ⟨?_, ?_, fun y hy t ht => ?_, fun y hy t op hop => ?_⟩
      · rw [hx, served_none_left]
        simp
      · exact fun i n => named_quiet (by simp [Node.Quiet]) i n
      · obtain rfl := Option.some.inj (hx'.symm.trans hy)
        cases ht
      · obtain rfl := Option.some.inj (hx'.symm.trans hy)
        cases hop
  · exact Or.inr (goesOn_quiet (by simp [Node.Quiet, hren.event]) hren.before hren.after rfl fun _ _ hop => hop)

/-! ### What has been seen -/

/-- What clients have seen (`S`), what workers have done (`W`) and which commands have become which operations
    (`N`) fit together. -/
structure Ledgers (S : List (HEvent ClientOp SectorVec)) (W : List (HEvent Uuid SectorVec))
    (N : List (Uuid × ClientOp)) : Prop where
  called : ∀ u a, (u, a) ∈ N → ∃ c, .invoke u c ∈ W ∧ .invoke a c ∈ S
  invoked : ∀ u c, .invoke u c ∈ W → ∃ a, (u, a) ∈ N ∧ .invoke a c ∈ S
  responded : ∀ a r, .respond a r ∈ S → ∃ u, (u, a) ∈ N ∧ .respond u r ∈ W
  unique : ∀ u a u' a', (u, a) ∈ N → (u', a') ∈ N → (u = u' ↔ a = a')

/-- What is in process `i`, which has been started `n` times, has been seen before. -/
structure Known (idx : SectorIdx) (S : List (HEvent ClientOp SectorVec)) (W : List (HEvent Uuid SectorVec))
    (N : List (Uuid × ClientOp)) (i : UInt8) (n : ℕ) (v : Node.World) : Prop where
  numbered : Numbered v
  waiting : ∀ t, v.Waits t → t.cmd.header.sectorIdx = idx → .invoke ⟨i, n, t.number⟩ (callOf t.cmd.content) ∈ S
  unnamed : ∀ t, v.Waits t → ∀ u, (u, ⟨i, n, t.number⟩) ∉ N
  below : ∀ a m c, .invoke ⟨i, a, m⟩ c ∈ S → toLex (a, m) < Node.epoch n v
  callback : ∀ x, v.slot idx.toNat = some x → ∀ t, x.worker.register.callback = some t →
    ∃ u, x.worker.register.opId = some u ∧ (u, ⟨i, n, t.number⟩) ∈ N
  running : ∀ x, v.slot idx.toNat = some x → ∀ t op, x.worker.running = some (.respond t op) →
    ∃ u, (u, ⟨i, n, t.number⟩) ∈ N ∧ .respond u (returnOf op.opReturn) ∈ W

variable {S S' : List (HEvent ClientOp SectorVec)} {W W' : List (HEvent Uuid SectorVec)}
  {N N' : List (Uuid × ClientOp)}

theorem mem_seen_invoke {a : ClientOp} {c : Call SectorVec} : .invoke a c ∈ seen idx i n e v v' ↔
    ∃ t, Node.taken v' e = some t ∧ t.cmd.header.sectorIdx = idx ∧ a = ⟨i, n, t.number⟩ ∧
      c = callOf t.cmd.content := by
  simp only [seen, List.mem_append, List.mem_map, Option.mem_toList, Option.filter_eq_some_iff, decide_eq_true_eq,
    HEvent.invoke.injEq, reduceCtorEq, and_false, exists_false, or_false]
  constructor
  · rintro ⟨t, ⟨ht, hsector⟩, rfl, rfl⟩
    exact ⟨t, ht, hsector, rfl, rfl⟩
  · rintro ⟨t, ht, hsector, rfl, rfl⟩
    exact ⟨t, ⟨ht, hsector⟩, rfl, rfl⟩

theorem mem_seen_respond {a : ClientOp} {r : Option SectorVec} : .respond a r ∈ seen idx i n e v v' ↔
    ∃ t op, answeredBy idx e (v.slot idx.toNat) (v'.slot idx.toNat) = some (t, op) ∧ a = ⟨i, n, t.number⟩ ∧
      r = returnOf op.opReturn := by
  simp [seen, Option.mem_toList, eq_comm]

theorem answeredBy_eq {a b : Option Slot} (h : answeredBy idx e a b = some (t, op)) :
    ∃ x, a = some x ∧ x.worker.running = some (.respond t op) := by
  unfold answeredBy at h
  split at h
  · rename_i s x x'
    split at h
    · split at h
      · rename_i t' op' hrunning
        obtain ⟨rfl, rfl⟩ := Prod.mk.inj (Option.some.inj h)
        exact ⟨x, rfl, hrunning⟩
      · cases h
    · cases h
  · cases h

/-- A step of another process. -/
theorem Known.frame (h : Known idx S W N i n v) (hS : ∀ y ∈ S, y ∈ S') (hW : ∀ y ∈ W, y ∈ W')
    (hN : ∀ y ∈ N, y ∈ N') (hS' : ∀ a m c, .invoke ⟨i, a, m⟩ c ∈ S' → .invoke ⟨i, a, m⟩ c ∈ S)
    (hN' : ∀ u a m, (u, ⟨i, a, m⟩) ∈ N' → (u, ⟨i, a, m⟩) ∈ N) : Known idx S' W' N' i n v := by
  refine ⟨h.numbered, fun t ht hs => hS _ (h.waiting t ht hs), fun t ht u hu => h.unnamed t ht u (hN' _ _ _ hu),
    fun a m c hc => h.below a m c (hS' a m c hc), fun x hx t ht => ?_, fun x hx t op hop => ?_⟩
  · obtain ⟨u, hu, hmem⟩ := h.callback x hx t ht
    exact ⟨u, hu, hN _ hmem⟩
  · obtain ⟨u, hmem, hresp⟩ := h.running x hx t op hop
    exact ⟨u, hN _ hmem, hW _ hresp⟩

theorem waits_up (h : v.Waits t) : ∃ l, v.phase = .up l := by
  obtain ⟨dir, phase⟩ := v
  cases phase with
  | up l => exact ⟨l, rfl⟩
  | recovering | down => exact absurd h (Nat.lt_irrefl 0)

theorem up_of_slot (h : v.slot idx.toNat = some x) : ∃ l, v.phase = .up l := by
  obtain ⟨dir, phase⟩ := v
  cases phase with
  | up l => exact ⟨l, rfl⟩
  | recovering => cases h
  | down => cases h

/-- A step of the process keeps what is in it known. -/
theorem Known.step {o : Unit} (h : Known idx S W N i n v) (hL : Ledgers S W N)
    (hnews : (∃ u t, Begins idx e v v' u t) ∨ GoesOn idx e v v')
    (hs : Node.step (p.node i) p.hmacSystemKey v e = some (v', o)) : Known idx (S ++ seen idx i n e v v')
    (W ++ served idx e (v.slot idx.toNat) (v'.slot idx.toNat))
    (N ++ named idx i n e (v.slot idx.toNat) (v'.slot idx.toNat)) i (Node.startedBy n e) v' := by
  have hstepped := Node.step_stepped hs
  have hm := Node.stepped_moves hstepped
  refine ⟨hm.numbered h.numbered, fun t ht hsector => ?_, fun t ht u hu => ?_, fun a m c hc => ?_,
    fun x' hx' t ht => ?_, fun x' hx' t op hop => ?_⟩
  · obtain ⟨l, hup⟩ := waits_up ht
    rw [Node.startedBy_up hstepped hup]
    rcases hm.waits ht with hold | hnew
    · exact List.mem_append_left _ (h.waiting t hold hsector)
    · exact List.mem_append_right _ (mem_seen_invoke.mpr ⟨t, hnew, hsector, rfl, rfl⟩)
  · obtain ⟨l, hup⟩ := waits_up ht
    rw [Node.startedBy_up hstepped hup] at hu
    rcases List.mem_append.mp hu with hu | hu
    · rcases hm.waits ht with hold | hnew
      · exact h.unnamed t hold u hu
      · -- a new command has a name that no operation has
        obtain ⟨c, -, hc⟩ := hL.called u _ hu
        obtain ⟨hepoch, -⟩ := Node.epoch_taken hstepped hnew n
        exact absurd (hepoch ▸ h.below n t.number c hc) (lt_irrefl _)
    · rcases hnews with ⟨u', t', hb⟩ | hg
      · rw [hb.names, List.mem_singleton] at hu
        obtain ⟨-, heq⟩ := Prod.mk.inj hu
        rw [hb.taken, hb.begun] at hm
        have hzero := hm.begun_once h.numbered
        have hpos := ht.numbered
        rw [(ClientOp.mk.inj heq).2.2, hzero] at hpos
        exact absurd hpos (lt_irrefl 0)
      · rw [hg.names] at hu
        cases hu
  · rcases List.mem_append.mp hc with hc | hc
    · exact lt_of_lt_of_le (h.below a m c hc) (Node.epoch_le hstepped n)
    · obtain ⟨t, htaken, -, heq, -⟩ := mem_seen_invoke.mp hc
      obtain ⟨-, rfl, rfl⟩ := ClientOp.mk.inj heq
      obtain ⟨hepoch, hlt⟩ := Node.epoch_taken hstepped htaken a
      rw [hepoch]
      exact hlt
  · obtain ⟨l, hup⟩ := up_of_slot hx'
    rw [Node.startedBy_up hstepped hup]
    rcases hnews with ⟨u', t', hb⟩ | hg
    · obtain ⟨hcb, hid, -⟩ := hb.slot x' hx'
      obtain rfl := Option.some.inj (hcb.symm.trans ht)
      exact ⟨u', hid, List.mem_append_right _ (by rw [hb.names]; exact List.mem_singleton_self _)⟩
    · obtain ⟨x, hx, hcb, hid⟩ := hg.callback x' hx' t ht
      obtain ⟨u, hu, hmem⟩ := h.callback x hx t hcb
      exact ⟨u, hid.trans hu, List.mem_append_left _ hmem⟩
  · obtain ⟨l, hup⟩ := up_of_slot hx'
    rw [Node.startedBy_up hstepped hup]
    rcases hnews with ⟨u', t', hb⟩ | hg
    · rw [(hb.slot x' hx').2.2] at hop
      cases hop
    · obtain ⟨x, hx, hold | ⟨hcb, hresp⟩⟩ := hg.running x' hx' t op hop
      · obtain ⟨u, hmem, hresp⟩ := h.running x hx t op hold
        exact ⟨u, List.mem_append_left _ hmem, List.mem_append_left _ hresp⟩
      · obtain ⟨u, hid, hmem⟩ := h.callback x hx t hcb
        rw [hid] at hresp
        exact ⟨u, List.mem_append_left _ hmem, List.mem_append_right _ hresp⟩

/-- A step keeps the ledgers together. -/
theorem Ledgers.step (hL : Ledgers S W N) (h : Known idx S W N i n v)
    (hnews : (∃ u t, Begins idx e v v' u t) ∨ GoesOn idx e v v') (hfresh : ∀ u ∈ draws v e, ∀ a, (u, a) ∉ N) :
    Ledgers (S ++ seen idx i n e v v')
    (W ++ served idx e (v.slot idx.toNat) (v'.slot idx.toNat))
    (N ++ named idx i n e (v.slot idx.toNat) (v'.slot idx.toNat)) := by
  refine ⟨fun u a hu => ?_, fun u c hc => ?_, fun a r hr => ?_, fun u a u' a' hu hu' => ?_⟩
  · rcases List.mem_append.mp hu with hu | hu
    · obtain ⟨c, hw, hc⟩ := hL.called u a hu
      exact ⟨c, List.mem_append_left _ hw, List.mem_append_left _ hc⟩
    · rcases hnews with ⟨u', t, hb⟩ | hg
      · rw [hb.names, List.mem_singleton] at hu
        obtain ⟨rfl, rfl⟩ := Prod.mk.inj hu
        refine ⟨_, List.mem_append_right _ ?_, List.mem_append_left _ (h.waiting t hb.waits hb.sector)⟩
        rw [hb.invokes]
        exact List.mem_singleton_self _
      · rw [hg.names] at hu
        cases hu
  · rcases List.mem_append.mp hc with hc | hc
    · obtain ⟨a, hu, ha⟩ := hL.invoked u c hc
      exact ⟨a, List.mem_append_left _ hu, List.mem_append_left _ ha⟩
    · rcases hnews with ⟨u', t, hb⟩ | hg
      · rw [hb.invokes, List.mem_singleton] at hc
        obtain ⟨rfl, rfl⟩ := HEvent.invoke.inj hc
        refine ⟨⟨i, n, t.number⟩, List.mem_append_right _ ?_,
          List.mem_append_left _ (h.waiting t hb.waits hb.sector)⟩
        rw [hb.names]
        exact List.mem_singleton_self _
      · exact absurd hc (hg.invokes u c)
  · rcases List.mem_append.mp hr with hr | hr
    · obtain ⟨u, hu, hw⟩ := hL.responded a r hr
      exact ⟨u, List.mem_append_left _ hu, List.mem_append_left _ hw⟩
    · obtain ⟨t, op, hans, rfl, rfl⟩ := mem_seen_respond.mp hr
      obtain ⟨x, hx, hrunning⟩ := answeredBy_eq hans
      obtain ⟨u, hu, hw⟩ := h.running x hx t op hrunning
      exact ⟨u, List.mem_append_left _ hu, List.mem_append_left _ hw⟩
  · rcases hnews with ⟨u₀, t, hb⟩ | hg
    · rw [hb.names] at hu hu'
      have hnew : ∀ a, (u₀, a) ∉ N := hfresh u₀ hb.draws
      have hold := h.unnamed t hb.waits
      rcases List.mem_append.mp hu with h₁ | h₁ <;> rcases List.mem_append.mp hu' with h₂ | h₂
      · exact hL.unique u a u' a' h₁ h₂
      · obtain ⟨rfl, rfl⟩ := Prod.mk.inj (List.mem_singleton.mp h₂)
        exact ⟨fun heq => absurd (heq ▸ h₁) (hnew a), fun heq => absurd (heq ▸ h₁) (hold u)⟩
      · obtain ⟨rfl, rfl⟩ := Prod.mk.inj (List.mem_singleton.mp h₁)
        exact ⟨fun heq => absurd (heq ▸ h₂) (hnew a'), fun heq => absurd (heq ▸ h₂) (hold u')⟩
      · obtain ⟨rfl, rfl⟩ := Prod.mk.inj (List.mem_singleton.mp h₁)
        obtain ⟨rfl, rfl⟩ := Prod.mk.inj (List.mem_singleton.mp h₂)
        exact ⟨fun _ => rfl, fun _ => rfl⟩
    · rw [hg.names, List.append_nil] at hu hu'
      exact hL.unique u a u' a' hu hu'

/-! ### Runs -/

/-- The step of a process that an event makes. -/
inductive NodeEvent : Event → UInt8 → Node.Event → Prop
  | node {i : UInt8} {e : Node.Event} : internal e = true → NodeEvent (.node i e) i e
  | accept {t : UInt8} {n : ℕ} : NodeEvent (.accept t n) t (.task (.run .accept))
  | read {t : UInt8} {c k : ℕ} {stream : List UInt8} : NodeEvent (.read t c k) t (.read c stream)
  | write {i t : UInt8} {ok : Bool} {k : ℕ} : NodeEvent (.write i t ok k) i (.client (.write t ok))

/-- A step of one process, in a step of all. -/
structure NodeSteps (p : Config) (w : World) (ev : Event) (w' : World) (i : UInt8) (e : Node.Event)
    (v' : Node.World) : Prop where
  event : NodeEvent ev i e
  step : Node.step (p.node i) p.hmacSystemKey (w.nodes i) e = some (v', ())
  nodes : w'.nodes = Function.update w.nodes i v'
  started : w'.started = Function.update w.started i (Node.startedBy (w.started i) e)
  drawn : w'.drawn = (draws (w.nodes i) e).toList ++ w.drawn
  fresh : ∀ u ∈ draws (w.nodes i) e, u ∉ w.drawn

/-- A step that no process makes. -/
structure NoneSteps (w : World) (ev : Event) (w' : World) : Prop where
  event : (∃ i t, ev = .connect i t) ∨ (∃ t, ev = .dial t) ∨ ∃ n bs, ev = .bytes n bs
  nodes : w'.nodes = w.nodes
  started : w'.started = w.started
  drawn : w'.drawn = w.drawn

theorem node_started (h : w.node p i e = some w') : w'.started = w.started := by
  obtain ⟨-, x, o, -, rfl⟩ := node_eq h
  unfold World.setNode
  split <;> rfl

/-- A step of a process that takes bytes from a stream, or puts bytes into one. -/
theorem nodeSteps_external {ev : Event} {w₀ w₁ : World} (hev : NodeEvent ev i e) (he : internal e = false)
    (hn : w.node p i e = some w₁) (hnodes₀ : w.nodes = w₀.nodes) (hstarted₀ : w.started = w₀.started)
    (hdrawn₀ : w.drawn = w₀.drawn) (hnodes : w'.nodes = w₁.nodes) (hstarted : w'.started = w₁.started)
    (hdrawn : w'.drawn = w₁.drawn) : ∃ v', NodeSteps p w₀ ev w' i e v' := by
  obtain ⟨-, x, o, hs, rfl⟩ := node_eq hn
  have hquiet : Node.startedBy (w₀.started i) e = w₀.started i ∧ draws (w₀.nodes i) e = none := by
    cases hev with
    | node hint => simp [he] at hint
    | accept | read | write => exact ⟨rfl, rfl⟩
  refine ⟨x, hev, hnodes₀ ▸ hs, ?_, ?_, ?_, by simp [hquiet.2]⟩
  · rw [hnodes, setNode_nodes, hnodes₀]
  · rw [hquiet.1, Function.update_eq_self, hstarted, node_started hn, hstarted₀]
  · rw [hquiet.2, hdrawn, node_drawn hn, hdrawn₀]
    rfl

theorem step_cases {ev : Event} {o : Unit} (hs : Cluster.step p w ev = some (w', o)) :
    NoneSteps w ev w' ∨ ∃ i e v', NodeSteps p w ev w' i e v' := by
  cases ev with
  | node i e =>
    simp only [Cluster.step] at hs
    split at hs
    · rename_i hguard
      obtain ⟨w₁, hn, heq⟩ := Option.map_eq_some_iff.mp hs
      obtain ⟨rfl, -⟩ := Prod.mk.inj heq
      obtain ⟨-, x, o, hstep, rfl⟩ := node_eq hn
      exact Or.inr ⟨i, e, x, .node hguard.1, hstep, setNode_nodes .., rfl, rfl, hguard.2.2⟩
    · cases hs
  | connect i t =>
    simp only [Cluster.step] at hs
    split at hs
    · split at hs
      · obtain ⟨rfl, -⟩ := Prod.mk.inj (Option.some.inj hs)
        exact Or.inl ⟨Or.inl ⟨i, t, rfl⟩, rfl, rfl, rfl⟩
      · cases hs
    · cases hs
  | dial t =>
    simp only [Cluster.step] at hs
    split at hs
    · obtain ⟨rfl, -⟩ := Prod.mk.inj (Option.some.inj hs)
      exact Or.inl ⟨Or.inr (Or.inl ⟨t, rfl⟩), rfl, rfl, rfl⟩
    · cases hs
  | bytes n bs =>
    simp only [Cluster.step] at hs
    split at hs
    · obtain ⟨rfl, -⟩ := Prod.mk.inj (Option.some.inj hs)
      exact Or.inl ⟨Or.inr (Or.inr ⟨n, bs, rfl⟩), rfl, rfl, rfl⟩
    · cases hs
  | accept t n =>
    simp only [Cluster.step] at hs
    split at hs
    · split at hs
      · obtain ⟨w₁, hn, heq⟩ := Option.map_eq_some_iff.mp hs
        obtain ⟨rfl, -⟩ := Prod.mk.inj heq
        exact Or.inr ⟨_, _, nodeSteps_external .accept rfl hn rfl rfl rfl rfl rfl rfl⟩
      · cases hs
    · cases hs
  | read t c k =>
    simp only [Cluster.step] at hs
    split at hs
    · split at hs
      · obtain ⟨w₁, hn, heq⟩ := Option.map_eq_some_iff.mp hs
        obtain ⟨rfl, -⟩ := Prod.mk.inj heq
        exact Or.inr ⟨_, _, nodeSteps_external .read rfl hn rfl rfl rfl rfl rfl rfl⟩
      · cases hs
    · cases hs
  | write i t ok k =>
    simp only [Cluster.step] at hs
    obtain ⟨w₁, hwritten, hs⟩ := Option.bind_eq_some_iff.mp hs
    obtain ⟨w₂, hn, heq⟩ := Option.map_eq_some_iff.mp hs
    obtain ⟨rfl, -⟩ := Prod.mk.inj heq
    obtain ⟨hnodes, -, hdrawn, hstarted⟩ := written_same hwritten
    exact Or.inr ⟨_, _, nodeSteps_external .write rfl hn hnodes hstarted hdrawn rfl rfl rfl⟩

/-- What a step adds to the ledgers. -/
theorem NodeSteps.adds (idx : SectorIdx) {ev : Event} (o : Unit) (h : NodeSteps p w ev w' i e v') :
    seenIn idx ⟨w, ev, o, w'⟩ = seen idx i (w.started i) e (w.nodes i) v' ∧
    servedIn idx ⟨w, ev, o, w'⟩ = served idx e ((w.nodes i).slot idx.toNat) (v'.slot idx.toNat) ∧
    namedIn idx ⟨w, ev, o, w'⟩ =
      named idx i (w.started i) e ((w.nodes i).slot idx.toNat) (v'.slot idx.toNat) := by
  have hv' : w'.nodes i = v' := by rw [h.nodes, Function.update_self]
  cases h.event with
  | node => exact ⟨by simp only [seenIn, hv'], by simp only [servedIn, hv'], by simp only [namedIn, hv']⟩
  | accept | write =>
    refine ⟨rfl, (served_quiet ?_).symm, (named_quiet ?_ _ _).symm⟩ <;> simp [Node.Quiet]
  | read =>
    refine ⟨by simp only [seenIn, hv']; rfl, (served_quiet ?_).symm, (named_quiet ?_ _ _).symm⟩ <;> simp [Node.Quiet]

theorem NoneSteps.adds (idx : SectorIdx) {ev : Event} (o : Unit) (h : NoneSteps w ev w') :
    seenIn idx ⟨w, ev, o, w'⟩ = [] ∧ servedIn idx ⟨w, ev, o, w'⟩ = [] ∧ namedIn idx ⟨w, ev, o, w'⟩ = [] := by
  rcases h.event with ⟨i, t, rfl⟩ | ⟨t, rfl⟩ | ⟨n, bs, rfl⟩ <;> exact ⟨rfl, rfl, rfl⟩

/-- All that is in the processes has been seen, and what has been seen fits together. -/
structure Told (idx : SectorIdx) (tr : Trace) (w : World) : Prop where
  ledgers : Ledgers (clientHistory idx tr) (workerHistory idx tr) (names idx tr)
  known : ∀ i, Known idx (clientHistory idx tr) (workerHistory idx tr) (names idx tr) i (w.started i) (w.nodes i)
  drawn : ∀ u a, (u, a) ∈ names idx tr → u ∈ w.drawn

theorem told_init : Told idx [] Cluster.init := by
  refine ⟨⟨by simp [names], by simp [workerHistory], by simp [clientHistory], by simp [names]⟩, fun i => ?_,
    by simp [names]⟩
  exact ⟨fun n => Nat.zero_le _, fun t ht => absurd ht (Nat.lt_irrefl 0), fun t ht => absurd ht (Nat.lt_irrefl 0),
    by simp [clientHistory], fun _ hx => absurd hx (by simp [Cluster.init, Node.init, Node.World.slot]),
    fun _ hx => absurd hx (by simp [Cluster.init, Node.init, Node.World.slot])⟩

/-- Only the process that makes the step is named. -/
theorem news_process (hnews : (∃ u t, Begins idx e v v' u t) ∨ GoesOn idx e v v') {a : ClientOp}
    (h : (u, a) ∈ named idx i n e (v.slot idx.toNat) (v'.slot idx.toNat)) : a.process = i ∧ draws v e = some u := by
  rcases hnews with ⟨u', t, hb⟩ | hg
  · rw [hb.names, List.mem_singleton] at h
    obtain ⟨rfl, rfl⟩ := Prod.mk.inj h
    exact ⟨rfl, hb.draws⟩
  · rw [hg.names] at h
    cases h

theorem Told.none {ev : Event} {o : Unit} (h : Told idx tr w) (hs : NoneSteps w ev w') :
    Told idx (tr ++ [⟨w, ev, o, w'⟩]) w' := by
  obtain ⟨hseen, hserved, hnamed⟩ := hs.adds idx o
  obtain ⟨hledgers, hknown, hdrawn⟩ := h
  simp only [clientHistory, workerHistory, names] at hledgers hknown hdrawn
  constructor <;> simpa only [clientHistory, workerHistory, names, List.flatMap_append, List.flatMap_singleton, hseen,
    hserved, hnamed, List.append_nil, hs.nodes, hs.started, hs.drawn]

theorem Told.node {ev : Event} {o : Unit} (h : Told idx tr w) (hkept : Kept (p.node i) (w.nodes i))
    (hs : NodeSteps p w ev w' i e v') : Told idx (tr ++ [⟨w, ev, o, w'⟩]) w' := by
  obtain ⟨hseen, hserved, hnamed⟩ := hs.adds idx o
  have hnews := slot_news idx hkept hs.step
  constructor <;> simp only [clientHistory, workerHistory, names, List.flatMap_append, List.flatMap_singleton, hseen,
    hserved, hnamed]
  · exact h.ledgers.step (h.known i) hnews fun u hu a ha => hs.fresh u hu (h.drawn u a ha)
  · intro j
    rw [hs.nodes, hs.started]
    rcases eq_or_ne j i with rfl | hne
    · rw [Function.update_self, Function.update_self]
      exact (h.known j).step h.ledgers hnews hs.step
    · rw [Function.update_of_ne hne, Function.update_of_ne hne]
      refine (h.known j).frame (fun y hy => List.mem_append_left _ hy) (fun y hy => List.mem_append_left _ hy)
        (fun y hy => List.mem_append_left _ hy) (fun a m c hc => ?_) fun u a m hu => ?_
      · rcases List.mem_append.mp hc with hold | hnew
        · exact hold
        · obtain ⟨t, -, -, heq, -⟩ := mem_seen_invoke.mp hnew
          exact absurd (ClientOp.mk.inj heq).1 hne
      · rcases List.mem_append.mp hu with hold | hnew
        · exact hold
        · exact absurd (news_process hnews hnew).1 hne
  · intro u a hu
    rw [hs.drawn]
    rcases List.mem_append.mp hu with hold | hnew
    · exact List.mem_append_right _ (h.drawn u a hold)
    · exact List.mem_append_left _ (by simp [(news_process hnews hnew).2])

theorem told (hC : ∀ r m e, C r m e → TagGrows (p.params idx) r m e) (hr : ClusterRun p C tr w) : Told idx tr w := by
  refine Run.invariant (I := Told idx) told_init (fun tr x hrun h _ hs => ?_) hr
  obtain ⟨tr', sys, -, hsim, -, -⟩ := simulated hC hrun
  rcases step_cases hs with hnone | ⟨i, e, v', hnode⟩
  · exact h.none hnone
  · exact h.node (hsim.kept i) hnode

/-! ### From further away -/

/-- The command of a client that has become operation `u`. -/
def clientOp (N : List (Uuid × ClientOp)) (u : Uuid) : ClientOp :=
  ((N.find? fun x => decide (x.1 = u)).map Prod.snd).getD ⟨0, 0, 0⟩

theorem Ledgers.clientOp_eq (hL : Ledgers S W N) {a : ClientOp} (h : (u, a) ∈ N) : clientOp N u = a := by
  cases hfind : N.find? fun x => decide (x.1 = u) with
  | none => exact absurd (List.find?_eq_none.mp hfind _ h) (by simp)
  | some x =>
    obtain ⟨u', a'⟩ := x
    obtain rfl : u' = u := by simpa using List.find?_some hfind
    rw [clientOp, hfind]
    exact (hL.unique u' a' u' a (List.mem_of_find?_eq_some hfind) h).mp rfl

/-- A step does not complete a command and read another after it. -/
theorem not_respond_invoke {a b : ClientOp} {r : Option SectorVec} {c : Call SectorVec} :
    ¬ List.Sublist [.respond a r, .invoke b c] (seen idx i n e v v') := by
  intro h
  obtain ⟨l₁, l₂, heq, h₁, h₂⟩ := List.sublist_append_iff.mp h
  rcases l₁ with _ | ⟨y, l₁⟩
  · rw [List.nil_append] at heq
    obtain ⟨z, -, hz⟩ := List.mem_map.mp (h₂.subset (heq ▸ List.mem_cons_of_mem _ (List.mem_singleton_self _)))
    cases hz
  · obtain rfl := (List.cons.inj heq).1
    obtain ⟨z, -, hz⟩ := List.mem_map.mp (h₁.subset (List.mem_cons_self ..))
    cases hz

/-- The command that a step reads has not been read before. -/
theorem Told.fresh {ev : Event} {o : Unit} (h : Told idx tr w) (hs : Cluster.step p w ev = some (w', o))
    {a : ClientOp} {c c' : Call SectorVec} (hseen : .invoke a c ∈ seenIn idx ⟨w, ev, o, w'⟩) :
    .invoke a c' ∉ clientHistory idx tr := by
  intro hold
  rcases step_cases hs with hnone | ⟨i, e, v', hnode⟩
  · rw [(hnone.adds idx _).1] at hseen
    cases hseen
  · rw [(hnode.adds idx _).1] at hseen
    obtain ⟨t, htaken, -, rfl, -⟩ := mem_seen_invoke.mp hseen
    obtain ⟨hepoch, -⟩ := Node.epoch_taken (Node.step_stepped hnode.step) htaken (w.started i)
    exact absurd (hepoch ▸ (h.known i).below _ _ _ hold) (lt_irrefl _)

/-- What comes after a response for a client comes after it for the workers. -/
theorem precedes_worker (hC : ∀ r m e, C r m e → TagGrows (p.params idx) r m e) (hr : ClusterRun p C tr w)
    {u₁ u₂ : Uuid} {c : Call SectorVec} {a₁ a₂ : ClientOp} (h₁ : (u₁, a₁) ∈ names idx tr)
    (h₂ : (u₂, a₂) ∈ names idx tr) (hinvoke : .invoke u₂ c ∈ workerHistory idx tr)
    (hprec : Precedes (clientHistory idx tr) a₁ a₂) :
    Precedes (workerHistory idx tr) u₁ u₂ := by
  have hL := (told hC hr).ledgers
  obtain ⟨r, c', hsub⟩ := hprec
  rcases pair_sublist_flatMap hsub with ⟨x, hx, hboth⟩ | ⟨l₁, x, l₂, rfl, hrespond, y, hy, hnew⟩
  · obtain ⟨l, -, -, hs⟩ := hr.entry hx
    rcases step_cases hs with hnone | ⟨i, e, v', hnode⟩
    · rw [(hnone.adds idx _).1] at hboth
      cases hboth
    · rw [(hnode.adds idx _).1] at hboth
      exact absurd hboth not_respond_invoke
  · obtain ⟨m₁, m₂, rfl⟩ := List.append_of_mem hy
    have hsplit : l₁ ++ x :: (m₁ ++ y :: m₂) = (l₁ ++ x :: m₁) ++ y :: m₂ := by simp
    obtain ⟨hrun, -, hs⟩ := hr.split hsplit
    have ht := told hC hrun
    rw [hsplit] at h₁ h₂ hinvoke hL ⊢
    have hnames : ∀ z, z ∈ names idx (l₁ ++ x :: m₁) → z ∈ names idx ((l₁ ++ x :: m₁) ++ y :: m₂) := by
      intro z hz
      rw [names, List.flatMap_append]
      exact List.mem_append_left _ hz
    -- the response has been seen before `y`, the command has not
    obtain ⟨u, hu, hresp⟩ := ht.ledgers.responded a₁ r (List.mem_flatMap.mpr ⟨x, by simp, hrespond⟩)
    obtain rfl := (hL.unique u a₁ u₁ a₁ (hnames _ hu) h₁).mpr rfl
    have hlate : .invoke u₂ c ∉ workerHistory idx (l₁ ++ x :: m₁) := by
      intro hearly
      obtain ⟨a, ha, hseen⟩ := ht.ledgers.invoked u₂ c hearly
      obtain rfl := (hL.unique u₂ a u₂ a₂ (hnames _ ha) h₂).mp rfl
      exact ht.fresh hs hnew hseen
    rw [workerHistory, List.flatMap_append] at hinvoke ⊢
    refine ⟨r, c, List.Sublist.append (List.singleton_sublist.mpr hresp) (List.singleton_sublist.mpr ?_)⟩
    exact (List.mem_append.mp hinvoke).resolve_left hlate

/-- What clients see is what the workers do, from further away. -/
theorem stretched (hC : ∀ r m e, C r m e → TagGrows (p.params idx) r m e) (hr : ClusterRun p C tr w) :
    Stretched (clientOp (names idx tr)) (workerHistory idx tr) (clientHistory idx tr) := by
  have hL := (told hC hr).ledgers
  have hnamed : ∀ u c, .invoke u c ∈ workerHistory idx tr → (u, clientOp (names idx tr) u) ∈ names idx tr ∧
      .invoke (clientOp (names idx tr) u) c ∈ clientHistory idx tr := by
    intro u c hc
    obtain ⟨a, ha, hseen⟩ := hL.invoked u c hc
    rw [hL.clientOp_eq ha]
    exact ⟨ha, hseen⟩
  refine ⟨fun u c hc => (hnamed u c hc).2, fun a r hresp => ?_, fun u₁ u₂ c₁ c₂ h₁ h₂ heq => ?_,
    fun u₁ u₂ c₁ c₂ h₁ h₂ hprec => ?_⟩
  · obtain ⟨u, hu, hw⟩ := hL.responded a r hresp
    exact ⟨u, hL.clientOp_eq hu, hw⟩
  · exact (hL.unique _ _ _ _ (hnamed u₁ c₁ h₁).1 (hnamed u₂ c₂ h₂).1).mpr heq
  · exact precedes_worker hC hr (hnamed u₁ c₁ h₁).1 (hnamed u₂ c₂ h₂).1 h₂ hprec

end AtomicDisk.Cluster
