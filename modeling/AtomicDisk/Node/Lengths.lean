import AtomicDisk.Node.RunRegisterProcess
import AtomicDisk.Storage.WriteSteps
import AtomicDisk.Transfer.Frames

/-! Sectors of 4096 bytes, part by part. No encoder, store or register looks at the length of a sector, so
    each part of a process keeps it because those before it do:

        deserialize_rc ──▶ commands ──▶ registers ──▶ effects ──▶ messages ──▶ serialize_rc
                                            ▲            │
                         read_data ─────────┘            └──▶ temporary file ──rename──▶ file

    Each part has a predicate that all its sectors are full, and a lemma for each of its steps. -/

namespace AtomicDisk.Node
open Schemes Register Transfer
open Process (Config Tasks TaskEvent TaskStepped Ticket Conn Worker Running taskStep initTasks)
open Storage (FileName Sector DataAccess Call SectorsManagerState recoverEntry fileAt tmpAt)

def Full (v : SectorVec) : Prop := v.data.length = 4096

theorem full_zeros : Full .zeros := List.length_replicate

@[simp] theorem sized_value {header : SystemCommandHeader} {ts : UInt64} {wr : UInt8} {data : SectorVec} :
    Sized (.system ⟨header, .value ts wr data⟩) ↔ Full data := Iff.rfl

@[simp] theorem sized_writeProc {header : SystemCommandHeader} {ts : UInt64} {wr : UInt8} {data : SectorVec} :
    Sized (.system ⟨header, .writeProc ts wr data⟩) ↔ Full data := Iff.rfl

@[simp] theorem sized_readProc {header : SystemCommandHeader} : Sized (.system ⟨header, .readProc⟩) := trivial

@[simp] theorem sized_ack {header : SystemCommandHeader} : Sized (.system ⟨header, .ack⟩) := trivial

/-! ### Registers -/

section registers

variable {κ : Type} {r r' : AtomicRegisterState κ} {s : ℕ}

structure RegisterFull (r : AtomicRegisterState κ) : Prop where
  val : Full r.val
  writeval : Full r.writeval
  readval : Full r.readval
  readlist : ∀ q e, r.readlist.lookup q = some e → Full e.2.2

def ReturnFull (op : OperationSuccess) : Prop := ∀ v, op.opReturn = .read v → Full v

/-- An effect of the register of sector `s`, which stores in no other sector. -/
def EffectFull (s : ℕ) : Effect κ → Prop
  | .write idx sector => idx.toNat = s ∧ Full sector.1
  | .send msg => Sized (.system msg.cmd)
  | .broadcast cmd => Sized (.system cmd)
  | .callback _ op => ReturnFull op

theorem registerFull_build (i n : UInt8) (idx : SectorIdx) {sector : Sector} (h : Full sector.1) :
    RegisterFull (buildAtomicRegister i idx n sector : AtomicRegisterState κ) := by
  refine ⟨h, full_zeros, full_zeros, fun q e he => ?_⟩
  cases he

theorem clientCommand_full {cmd : ClientRegisterCommand} (h : RegisterFull r) (hcmd : Sized (.client cmd))
    (f : κ) (uuid : Uuid) : RegisterFull (clientCommand r cmd f uuid).1 := by
  obtain ⟨header, _ | data⟩ := cmd
  · refine ⟨h.val, h.writeval, h.readval, fun q e he => ?_⟩
    cases he
  · refine ⟨h.val, hcmd, h.readval, fun q e he => ?_⟩
    cases he

theorem readlist_insert_full {m : HashMap UInt8 ReadEntry} (h : ∀ q e, m.lookup q = some e → Full e.2.2)
    (q : UInt8) {e : ReadEntry} (he : Full e.2.2) :
    ∀ q' e', (m.insert q e).lookup q' = some e' → Full e'.2.2 := by
  intro q' e' hlookup
  by_cases hq : q' = q
  · rw [hq, AList.lookup_insert] at hlookup
    obtain rfl := Option.some.inj hlookup
    exact he
  · rw [AList.lookup_insert_ne hq] at hlookup
    exact h q' e' hlookup

theorem consulted_full (h : RegisterFull r) {q : UInt8} {e e' : ReadEntry} (he : Full e.2.2)
    (hhigh : Highest (consulted r q e) e') : Full e'.2.2 := by
  obtain ⟨⟨k, hk⟩, -⟩ := hhigh
  exact readlist_insert_full (readlist_insert_full h.readlist q he) r.selfIdent h.val k e' hk

/-- What a register answers, stores and returns has come to it in full sectors. -/
theorem handled_full {oc : Bool} {header : SystemCommandHeader} {c : SystemRegisterCommandContent}
    {effs : List (Effect κ)} (h : RegisterFull r) (hplace : r.sectorIdx.toNat = s)
    (hcmd : Sized (.system ⟨header, c⟩)) (hh : Handled oc r header c r' effs) :
    RegisterFull r' ∧ ∀ eff ∈ effs, EffectFull s eff := by
  cases hh with
  | readProc => exact ⟨h, by simpa [EffectFull] using h.val⟩
  | valueStale | ackStale => exact ⟨h, by simp⟩
  | @valueCollect t w d =>
    exact ⟨⟨h.val, h.writeval, h.readval, readlist_insert_full h.readlist _ hcmd⟩, by simp⟩
  | @valueRead t w d e _ _ _ _ hhigh =>
    have hread := consulted_full h (e := (t, w, d)) hcmd hhigh
    refine ⟨⟨h.val, h.writeval, hread, fun q e he => ?_⟩, by simpa [EffectFull] using hread⟩
    cases he
  | @valueWrite t w d e ts _ _ _ _ _ hhigh _ =>
    have hread := consulted_full h (e := (t, w, d)) hcmd hhigh
    refine ⟨⟨h.writeval, h.writeval, hread, fun q e he => ?_⟩, ?_⟩
    · cases he
    · simpa [EffectFull, hplace] using h.writeval
  | @writeProcAdopt t w d =>
    exact ⟨⟨hcmd, h.writeval, h.readval, h.readlist⟩, by simpa [EffectFull, hplace] using hcmd⟩
  | writeProcKeep => exact ⟨h, by simp [EffectFull]⟩
  | ackCollect | ackReadUnheard | ackWriteUnheard =>
    exact ⟨⟨h.val, h.writeval, h.readval, h.readlist⟩, by simp⟩
  | ackRead =>
    refine ⟨⟨h.val, h.writeval, h.readval, h.readlist⟩, ?_⟩
    simpa [EffectFull, ReturnFull] using h.readval
  | ackWrite =>
    exact ⟨⟨h.val, h.writeval, h.readval, h.readlist⟩, by simp [EffectFull, ReturnFull]⟩

end registers

/-! ### The tasks of a process -/

section tasks

variable {p : Config} {s : ℕ}

/-- The command that a connection has in hand is full. -/
def ConnFull : Conn → Prop
  | .acquiring t | .sending t | .replyingHmac t | .replyingSector t => Sized (.client t.cmd)
  | .reading | .closed => True

/-- What worker `s` has is full, and its register is the one of sector `s`. -/
structure WorkerFull (s : ℕ) (k : Worker) : Prop where
  queue : ∀ x ∈ k.queue, Sized x.1
  register : RegisterFull k.register
  running : ∀ t op, k.running = some (.respond t op) → ReturnFull op
  place : k.register.sectorIdx.toNat = s

structure TasksFull (w : Process.World) : Prop where
  conns : ∀ k ∈ w.conns, ConnFull k
  workers : ∀ s k, w.workers[s]? = some k → WorkerFull s k

/-- What the event brings is full. -/
def EventFull : Process.Event → Prop
  | .receive _ cmd _ => Sized cmd
  | .selfMessage cmd => Sized (.system cmd)
  | _ => True

variable {w w' : Process.World} {k : Worker}

theorem WorkerFull.push {x : RegisterCommand × Option Ticket} (h : WorkerFull s k) (hx : Sized x.1) :
    WorkerFull s (k.push x) := by
  exact ⟨forall_mem_snoc h.queue hx, h.register, h.running, h.place⟩

theorem TasksFull.set_conn (h : TasksFull w) (c : ℕ) {k : Conn} (hk : ConnFull k) :
    ∀ x ∈ w.conns.set c k, ConnFull x := by
  intro x hx
  rcases List.mem_or_eq_of_mem_set hx with hx | rfl
  · exact h.conns x hx
  · exact hk

theorem TasksFull.set_worker (h : TasksFull w) (hk : WorkerFull s k) :
    ∀ s' k', (w.workers.set s k)[s']? = some k' → WorkerFull s' k' :=
  forall_set h.workers hk

/-- The callback that has been invoked returns a full sector, or none. -/
theorem invoked_full {effs : List (Effect Ticket)} (h : ∀ eff ∈ effs, EffectFull s eff) {t : Ticket}
    {op : OperationSuccess} (hrun : Process.invoked effs = some (.respond t op)) : ReturnFull op := by
  obtain ⟨eff, heff, hsome⟩ := List.exists_of_findSome?_eq_some hrun
  cases eff with
  | callback t' op' =>
    obtain ⟨rfl, rfl⟩ := Running.respond.inj (Option.some.inj hsome)
    exact h _ heff
  | _ => cases hsome

theorem WorkerFull.client {cmd : ClientRegisterCommand} {callback : Option Ticket}
    {queue : List (RegisterCommand × Option Ticket)} {r : AtomicRegisterState Ticket}
    (h : WorkerFull s ⟨(.client cmd, callback) :: queue, r, none⟩) (t : Ticket) (uuid : Uuid) :
    WorkerFull s ⟨queue, (clientCommand r cmd t uuid).1, none⟩ ∧
      ∀ eff ∈ (clientCommand r cmd t uuid).2, EffectFull s eff := by
  refine ⟨⟨?_, ?_, by simp, ?_⟩, by simp [clientCommand_effects, EffectFull]⟩
  · exact fun x hx => h.queue x (List.mem_cons_of_mem _ hx)
  · exact clientCommand_full h.register (h.queue _ (List.mem_cons_self ..)) t uuid
  · exact (congrArg UInt64.toNat (clientCommand_identity r cmd t uuid).2.2).trans h.place

theorem WorkerFull.system {cmd : SystemRegisterCommand} {callback : Option Ticket} {oc : Bool}
    {queue : List (RegisterCommand × Option Ticket)} {r r' : AtomicRegisterState Ticket}
    {effs : List (Effect Ticket)} (h : WorkerFull s ⟨(.system cmd, callback) :: queue, r, none⟩)
    (hh : Handled oc r cmd.header cmd.content r' effs) :
    WorkerFull s ⟨queue, r', Process.invoked effs⟩ ∧ ∀ eff ∈ effs, EffectFull s eff := by
  obtain ⟨hregister, heffs⟩ := handled_full h.register h.place (h.queue _ (List.mem_cons_self ..)) hh
  refine ⟨⟨?_, hregister, fun t op hrun => invoked_full heffs hrun, ?_⟩, heffs⟩
  · exact fun x hx => h.queue x (List.mem_cons_of_mem _ hx)
  · exact (congrArg UInt64.toNat hh.identity.2.2).trans h.place

/-- A step of a process, and the effects of the handler it runs. -/
theorem tasksFull_step {e : Process.Event} {effs : List (Effect Ticket)} (h : TasksFull w) (he : EventFull e)
    (hs : Process.step p w e = some (w', effs)) :
    TasksFull w' ∧ ∀ s uuid order, e = .work s uuid order → ∀ eff ∈ effs, EffectFull s eff := by
  cases Process.step_stepped hs with
  | accept => exact ⟨⟨forall_mem_snoc h.conns trivial, h.workers⟩, by simp⟩
  | @take c | @refuseHmac c | @refuseSector c => exact ⟨⟨h.set_conn c he, h.workers⟩, by simp⟩
  | @deliver c cmd k _ hk | @selfMessage cmd k hk =>
    exact ⟨⟨h.conns, h.set_worker ((h.workers _ k hk).push he)⟩, by simp⟩
  | ignore => exact ⟨h, by simp⟩
  | @misdirect c | @hangUp c | @reply c => exact ⟨⟨h.set_conn c trivial, h.workers⟩, by simp⟩
  | @acquire c _ t hc =>
    have hcmd : Sized (.client t.cmd) := h.conns _ (List.mem_of_getElem? hc)
    exact ⟨⟨h.set_conn c hcmd, h.workers⟩, by simp⟩
  | @send c t k hc hk =>
    have hcmd : Sized (.client t.cmd) := h.conns _ (List.mem_of_getElem? hc)
    exact ⟨⟨h.set_conn c trivial, h.set_worker ((h.workers _ k hk).push hcmd)⟩, by simp⟩
  | @client s uuid _ cmd t queue r hk =>
    obtain ⟨hworker, heffs⟩ := (h.workers s _ hk).client t uuid
    refine ⟨⟨h.conns, h.set_worker hworker⟩, ?_⟩
    rintro s' uuid' order' ⟨⟩
    exact heffs
  | @system s _ _ cmd callback queue r r' effs hk hsys =>
    obtain ⟨hworker, heffs⟩ := (h.workers s _ hk).system (systemCommand_handled hsys)
    refine ⟨⟨h.conns, h.set_worker hworker⟩, ?_⟩
    rintro s' uuid' order' ⟨⟩
    exact heffs
  | @respond s queue r t op rid msgType hk =>
    have hworker := h.workers s _ hk
    refine ⟨⟨h.conns, h.set_worker ⟨hworker.queue, hworker.register, ?_, hworker.place⟩⟩, by simp⟩
    simp
  | @release s queue r t hk =>
    have hworker := h.workers s _ hk
    refine ⟨⟨h.conns, h.set_worker ⟨hworker.queue, hworker.register, ?_, hworker.place⟩⟩, by simp⟩
    simp

/-- A worker that has panicked leaves a register built from what the storage held. -/
theorem TasksFull.dies {w : Tasks} (h : TasksFull w.world) (hsectors : ∀ s, Full (p.sectors s).1)
    {queue : List (RegisterCommand × Option Ticket)} (hk : w.world.workers[s]? = some k)
    (hqueue : ∀ x ∈ queue, x ∈ k.queue) (running : Option Running) :
    TasksFull (w.dies p s ⟨queue, k.register, running⟩).world := by
  have hworker := h.workers s k hk
  refine ⟨h.conns, h.set_worker ⟨?_, registerFull_build _ _ _ (hsectors s), by simp, ?_⟩⟩
  · exact fun x hx => hworker.queue x (hqueue x hx)
  · have hlt : s < 2 ^ 64 := hworker.place ▸ k.register.sectorIdx.toNat_lt
    exact (UInt64.toNat_ofNat_of_lt' hlt)

theorem tasksFull_taskStep {w w' : Tasks} {e : TaskEvent} {effs : List (Effect Ticket)}
    (h : TasksFull w.world) (hsectors : ∀ s, Full (p.sectors s).1) (he : ∀ e', e = .run e' → EventFull e')
    (hs : taskStep p w e = some (w', effs)) :
    TasksFull w'.world ∧ ∀ s, begins e = some s → ∀ eff ∈ effs, EffectFull s eff := by
  cases Process.taskStep_stepped hs with
  | @runs e world effs failed hrun =>
    obtain ⟨hworld, heffs⟩ := tasksFull_step h (he e rfl) hrun
    refine ⟨hworld, fun s hbegins => ?_⟩
    cases e with
    | work s' uuid order =>
      obtain rfl : s' = s := Option.some.inj hbegins
      exact heffs s' uuid order rfl
    | _ => cases hbegins
  | fails => exact ⟨h, by simp⟩
  | closes => exact ⟨⟨h.set_conn _ trivial, h.workers⟩, by simp⟩
  | abandons => exact ⟨⟨h.set_conn _ trivial, h.workers⟩, by simp⟩
  | selfHandlerPanics => exact ⟨h, by simp⟩
  | handlerPanics hk => exact ⟨h.dies hsectors hk (fun x hx => List.mem_cons_of_mem _ hx) _, by simp⟩
  | @callbackPanics s k hk => exact ⟨h.dies hsectors hk (fun x hx => hx) k.running, by simp⟩

end tasks

/-! ### The register client -/

section client

variable {α : Type} {P : α → Prop} {w w' : Client.World α} {c : Client.RegisterClientState} {o : Unit}

/-- Every command on the way to one process, or written to it, satisfies `P`. -/
structure LinkAll (P : α → Prop) (k : Client.Link α) : Prop where
  connection : ∀ m ∈ k.connection, P m
  retransmission : ∀ m ∈ k.retransmission, P m
  held : ∀ m ∈ k.held, P m
  written : ∀ m ∈ k.written, P m
  passed : ∀ m ∈ k.passed, P m

/-- Every command that the client has been given satisfies `P`. -/
structure ClientAll (P : α → Prop) (w : Client.World α) : Prop where
  calls : ∀ ps ∈ w.calls, ∀ push ∈ ps, P push.cmd
  links : ∀ t, LinkAll P (w.links t)
  self : ∀ m ∈ w.selfQueue, P m

theorem clientAll_init : ClientAll P (Client.init : Client.World α) := by
  refine ⟨by simp [Client.init], fun t => ?_, by simp [Client.init]⟩
  constructor <;> simp [Client.init]

theorem ClientAll.imp {Q : α → Prop} (h : ClientAll P w) (hPQ : ∀ m, P m → Q m) : ClientAll Q w := by
  refine ⟨fun ps hps push hpush => hPQ _ (h.calls ps hps push hpush), fun t => ?_,
    fun m hm => hPQ m (h.self m hm)⟩
  have hlink := h.links t
  exact ⟨fun m hm => hPQ m (hlink.connection m hm), fun m hm => hPQ m (hlink.retransmission m hm),
    fun m hm => hPQ m (hlink.held m hm), fun m hm => hPQ m (hlink.written m hm),
    fun m hm => hPQ m (hlink.passed m hm)⟩

/-- The pushes of a call are all of the command it is given. -/
theorem send_all {m : α} {t : UInt8} {ps : List (Client.Push α)} (hm : P m) (hs : c.send m t = some ps) :
    ∀ push ∈ ps, P push.cmd := by
  simp only [Client.RegisterClientState.send, Option.bind_eq_bind, Option.bind_eq_some_iff,
    Option.some.injEq] at hs
  obtain ⟨channel, -, channel', -, rfl⟩ := hs
  simp [hm]

theorem sendAll_all {m : α} (hm : P m) {targets : List UInt8} {ps : List (Client.Push α)}
    (hs : c.sendAll m targets = some ps) : ∀ push ∈ ps, P push.cmd := by
  induction targets generalizing ps with
  | nil =>
    obtain rfl : [] = ps := Option.some.inj hs
    simp
  | cons t targets ih =>
    simp only [Client.RegisterClientState.sendAll, Option.bind_eq_bind, Option.bind_eq_some_iff,
      Option.some.injEq] at hs
    obtain ⟨first, hfirst, rest, hrest, rfl⟩ := hs
    intro push hpush
    rcases List.mem_append.mp hpush with hpush | hpush
    · exact send_all hm hfirst push hpush
    · exact ih hrest push hpush

theorem ClientAll.call {ps : List (Client.Push α)} (h : ClientAll P w) (hps : ∀ push ∈ ps, P push.cmd) :
    ClientAll P { w with calls := w.calls ++ [ps] } :=
  ⟨forall_mem_snoc h.calls hps, h.links, h.self⟩

theorem ClientAll.setLink (h : ClientAll P w) (t : UInt8) {k : Client.Link α} (hk : LinkAll P k) :
    ClientAll P (w.setLink t k) := by
  refine ⟨h.calls, fun t' => ?_, h.self⟩
  by_cases ht : t' = t
  · rw [ht, w.setLink_same]
    exact hk
  · rw [w.setLink_ne k ht]
    exact h.links t'

theorem ClientAll.enqueue {push : Client.Push α} (h : ClientAll P w) (hpush : P push.cmd) :
    ClientAll P (w.enqueue push) := by
  obtain ⟨channel, cmd⟩ := push
  cases channel with
  | self => exact ⟨h.calls, h.links, forall_mem_snoc h.self hpush⟩
  | connection t =>
    have hk := h.links t
    exact h.setLink t ⟨forall_mem_snoc hk.connection hpush, hk.retransmission, hk.held, hk.written,
      hk.passed⟩
  | retransmission t =>
    have hk := h.links t
    exact h.setLink t ⟨hk.connection, forall_mem_snoc hk.retransmission hpush, hk.held, hk.written,
      forall_mem_snoc hk.passed hpush⟩

/-- What the event gives to the client. -/
def given : Client.Event α → Option α
  | .send m _ | .broadcast m => some m
  | _ => none

theorem clientAll_step {e : Client.Event α} (h : ClientAll P w) (he : ∀ m ∈ given e, P m)
    (hs : Client.step c w e = some (w', o)) : ClientAll P w' := by
  cases e with
  | send m t =>
    obtain ⟨ps, hps, heq⟩ := Option.map_eq_some_iff.mp hs
    obtain ⟨rfl, -⟩ := Prod.mk.inj heq
    exact h.call (send_all (he m rfl) hps)
  | broadcast m =>
    obtain ⟨ps, hps, heq⟩ := Option.map_eq_some_iff.mp hs
    obtain ⟨rfl, -⟩ := Prod.mk.inj heq
    exact h.call (sendAll_all (he m rfl) hps)
  | push i =>
    simp only [Client.step] at hs
    split at hs
    · rename_i push ps hi
      obtain ⟨rfl, -⟩ := Prod.mk.inj (Option.some.inj hs)
      have hcall := h.calls _ (List.mem_of_getElem? hi)
      have hq := h.enqueue (hcall push (List.mem_cons_self ..))
      refine ⟨fun qs hqs => ?_, hq.links, hq.self⟩
      rcases List.mem_or_eq_of_mem_set hqs with hqs | rfl
      · exact h.calls qs hqs
      · exact fun q hmem => hcall q (List.mem_cons_of_mem _ hmem)
    · simp at hs
  | write t ok =>
    simp only [Client.step] at hs
    split at hs
    · simp at hs
    · rename_i m queue hqueue
      obtain ⟨rfl, -⟩ := Prod.mk.inj (Option.some.inj hs)
      have hk := h.links t
      have hm : P m := hk.connection m (hqueue ▸ List.mem_cons_self ..)
      refine h.setLink t ⟨fun x hx => hk.connection x (hqueue ▸ List.mem_cons_of_mem _ hx),
        hk.retransmission, hk.held, ?_, hk.passed⟩
      cases ok with
      | true => exact forall_mem_snoc hk.written hm
      | false => exact hk.written
  | tick t =>
    obtain ⟨rfl, -⟩ := Prod.mk.inj (Option.some.inj hs)
    have hk := h.links t
    refine h.setLink t ⟨fun x hx => ?_, hk.retransmission, hk.held, hk.written, hk.passed⟩
    rcases List.mem_append.mp hx with hx | hx
    · exact hk.connection x hx
    · exact hk.held x (Option.mem_toList.mp hx)
  | take t =>
    simp only [Client.step] at hs
    split at hs
    · simp at hs
    · rename_i m queue hqueue
      obtain ⟨rfl, -⟩ := Prod.mk.inj (Option.some.inj hs)
      have hk := h.links t
      refine h.setLink t ⟨hk.connection, fun x hx => hk.retransmission x (hqueue ▸ List.mem_cons_of_mem _ hx),
        ?_, hk.written, hk.passed⟩
      rintro x ⟨⟩
      exact hk.retransmission m (hqueue ▸ List.mem_cons_self ..)
  | selfReceive =>
    simp only [Client.step] at hs
    split at hs
    · simp at hs
    · rename_i m queue hqueue
      obtain ⟨rfl, -⟩ := Prod.mk.inj (Option.some.inj hs)
      exact ⟨h.calls, h.links, fun x hx => h.self x (hqueue ▸ List.mem_cons_of_mem _ hx)⟩

end client

/-! ### The directory -/

section directory

variable {dir dir' : Directory FileName} {idx j : SectorIdx}

/-- Every file of a sector has 4096 bytes; the temporary files may have any number of them. -/
def FilesFull (dir : Directory FileName) : Prop := ∀ idx t bytes, fileAt dir idx t = some bytes → bytes.length = 4096

/-- What a call of `write` for sector `idx` has to keep until it renames: all the data, once it is there. -/
structure CallFull (dir : Directory FileName) (idx : SectorIdx) (call : Call) : Prop where
  sector : Full call.sector.1
  filled : call.stage = .filled → tmpAt dir idx call.sector.2 = some call.sector.1.data

theorem FilesFull.removeFile {n : FileName} (h : FilesFull dir) (hrem : dir.removeFile n = some dir') :
    FilesFull dir' := by
  intro idx t bytes hfile
  rw [fileAt, Directory.lookup_removeFile hrem] at hfile
  split at hfile
  · cases hfile
  · exact h idx t bytes hfile

/-- Recovery only removes. -/
theorem FilesFull.recoverEntry {da da' : DataAccess} {n : FileName} (h : FilesFull dir)
    (hs : Storage.recoverEntry dir da n = some (dir', da')) : FilesFull dir' := by
  unfold Storage.recoverEntry at hs
  split at hs
  · simp only [Option.bind_eq_bind, Option.bind_eq_some_iff] at hs
    obtain ⟨sidx, -, ts, -, wr, -, hs⟩ := hs
    split at hs
    · obtain ⟨rfl, -⟩ := Prod.mk.inj (Option.some.inj hs)
      exact h
    · split at hs
      · obtain ⟨dir₁, hrem, hs⟩ := Option.bind_eq_some_iff.mp hs
        obtain ⟨rfl, -⟩ := Prod.mk.inj (Option.some.inj hs)
        exact h.removeFile hrem
      · obtain ⟨dir₁, hrem, hs⟩ := Option.bind_eq_some_iff.mp hs
        obtain ⟨rfl, -⟩ := Prod.mk.inj (Option.some.inj hs)
        exact h.removeFile hrem
  · obtain ⟨dir₁, hrem, hs⟩ := Option.bind_eq_some_iff.mp hs
    obtain ⟨rfl, -⟩ := Prod.mk.inj (Option.some.inj hs)
    exact h.removeFile hrem

theorem FilesFull.fill_tmp (h : FilesFull dir) (t : UInt64 × UInt8) (bytes : List UInt8) :
    FilesFull (dir.fill (Storage.sectoridxTmpFilePath idx t.1 t.2) bytes) := by
  intro j u bytes hfile
  rw [Storage.fileAt_fill_tmp] at hfile
  exact h j u bytes hfile

/-- A step of a call leaves full files, and the temporary files of other sectors alone. -/
theorem advance_full {m m' : SectorsManagerState} {call call' : Call} (hfull : FilesFull m.dir)
    (h : CallFull m.dir idx call) (hs : call.advance idx m = some (m', call')) :
    FilesFull m'.dir ∧ CallFull m'.dir idx call' ∧ call'.sector = call.sector ∧
      ∀ j, j ≠ idx → tmpAt m'.dir j = tmpAt m.dir j := by
  obtain ⟨⟨data, t⟩, stage⟩ := call
  have hdata : Full data := h.sector
  cases stage with
  | begun =>
    obtain ⟨rfl, rfl⟩ := Prod.mk.inj (Option.some.inj hs)
    refine ⟨hfull.fill_tmp t [], ⟨hdata, by simp⟩, rfl, fun j hj => ?_⟩
    exact (Storage.tmpAt_fill_tmp []).trans (if_neg hj)
  | created =>
    obtain ⟨rfl, rfl⟩ := Prod.mk.inj (Option.some.inj hs)
    refine ⟨hfull.fill_tmp t data.data, ⟨hdata, fun _ => ?_⟩, rfl, fun j hj => ?_⟩
    · exact (congrFun (Storage.tmpAt_fill_tmp data.data) t).trans (by rw [if_pos rfl, Function.update_self])
    · exact (Storage.tmpAt_fill_tmp data.data).trans (if_neg hj)
  | filled =>
    -- the file takes over what the temporary file holds
    obtain ⟨dir, hren, heq⟩ := Option.map_eq_some_iff.mp hs
    obtain ⟨rfl, rfl⟩ := Prod.mk.inj heq
    refine ⟨fun j u bytes hfile => ?_, ⟨hdata, by simp⟩, rfl, fun j hj => ?_⟩
    · rw [Storage.fileAt_rename hren] at hfile
      split at hfile
      · rename_i hj
        by_cases hu : u = t
        · rw [hu, Function.update_self, h.filled rfl] at hfile
          obtain rfl := Option.some.inj hfile
          exact hdata
        · rw [Function.update_of_ne hu] at hfile
          exact hfull j u bytes hfile
      · exact hfull j u bytes hfile
    · exact (Storage.tmpAt_rename hren).trans (if_neg hj)
  | renamed =>
    obtain ⟨bytes, -, heq⟩ := Option.map_eq_some_iff.mp hs
    obtain ⟨rfl, rfl⟩ := Prod.mk.inj heq
    exact ⟨hfull, ⟨hdata, by simp⟩, rfl, fun j _ => rfl⟩
  | updated old =>
    simp only [Call.advance] at hs
    split at hs
    · obtain ⟨dir, hrem, heq⟩ := Option.map_eq_some_iff.mp hs
      obtain ⟨rfl, rfl⟩ := Prod.mk.inj heq
      exact ⟨hfull.removeFile hrem, ⟨hdata, by simp⟩, rfl, fun j _ => Storage.tmpAt_removeFile hrem⟩
    · obtain ⟨rfl, rfl⟩ := Prod.mk.inj (Option.some.inj hs)
      exact ⟨hfull, ⟨hdata, by simp⟩, rfl, fun j _ => rfl⟩
  | removed =>
    obtain ⟨rfl, rfl⟩ := Prod.mk.inj (Option.some.inj hs)
    exact ⟨hfull, ⟨hdata, by simp⟩, rfl, fun j _ => rfl⟩

/-- `read_data` returns a full sector, unless there is no such file. -/
theorem readData_full {da : DataAccess} (hfull : FilesFull dir)
    (hfile : ∀ t, da.lookup idx = some t → (fileAt dir idx t).isSome = true) :
    ∃ v, (SectorsManagerState.mk dir da).readData idx = some v ∧ Full v := by
  cases hda : da.lookup idx with
  | none => exact ⟨.zeros, by simp [SectorsManagerState.readData, hda], full_zeros⟩
  | some t =>
    obtain ⟨bytes, hbytes⟩ := Option.isSome_iff_exists.mp (hfile t hda)
    have hlen := hfull idx t bytes hbytes
    have hread : dir.readExact (Storage.sectoridxFilePath idx t.1 t.2) 4096 = some bytes := by
      rw [← hlen]
      exact Directory.readExact_full hbytes
    exact ⟨⟨bytes⟩, by simp [SectorsManagerState.readData, hda, hread], hlen⟩

end directory

end AtomicDisk.Node
