import AtomicDisk.Process.Streams

/-! What becomes of the messages of a stream. In every run the messages read on a connection are split into
    those that are handled and at most one that is in hand; what the connection has delivered and refused is
    what the handled ones are to become.

        readBy c    = handled ++ inHand
        deliveredBy c = handled.filterMap route        refusedBy c = handled.filterMap refuse

    A step of another task moves nothing of this (`advanced_other`); a step of the connection's own task
    takes a message in hand or is done with it (`advanced_own`). -/

namespace AtomicDisk.Process
open Schemes Register Transfer

variable {p : Config} {key : List UInt8} {w w' : Tasks} {e : TaskEvent} {effs : List (Effect Ticket)}
  {c s : ℕ} {k : Conn} {t : Ticket}

/-! ### What a step delivers -/

theorem pushed_same {w w' : World} (h : w'.workers = w.workers) : pushed w w' = [] := by
  rw [pushed, h, List.flatMap_eq_nil_iff]
  intro i _
  cases w.workers[i]? <;> simp

theorem pushed_push {w w' : World} {k : Worker} {x : RegisterCommand × Option Ticket}
    (hk : w.workers[s]? = some k) (h : w'.workers = w.workers.set s (k.push x)) :
    pushed w w' = [(s, x.1)] := by
  have hlt : s < w.workers.length := (List.getElem?_eq_some_iff.mp hk).1
  rw [pushed, h, List.length_set, flatMap_range_single hlt]
  · rw [hk, List.getElem?_set_self hlt]
    simp [Worker.push]
  · intro i hi
    rw [List.getElem?_set_ne (Ne.symm hi)]
    cases w.workers[i]? <;> simp

/-! ### What a step does to a connection -/

/-- The task of a connection is the only one that changes it. -/
def Owned (w w' : World) (e : Event) : Prop :=
  w'.conns = w.conns ∨ ∃ c k, (TaskEvent.run e).conn = some c ∧ w'.conns = w.conns.set c k

theorem owned_step {w w' : World} {e : Event} (hs : step p w e = some (w', effs)) (haccept : e ≠ .accept) :
    Owned w w' e := by
  cases step_stepped hs with
  | accept => exact absurd rfl haccept
  | @take c | @refuseHmac c | @refuseSector c | @misdirect c | @hangUp c | @acquire c | @send c | @reply c =>
    exact Or.inr ⟨c, _, rfl, rfl⟩
  | deliver | ignore | selfMessage | client | system | respond | release => exact Or.inl rfl

theorem Owned.other {w w' : World} {e : Event} (h : Owned w w' e) (hc : (TaskEvent.run e).conn ≠ some c) :
    w'.conns[c]? = w.conns[c]? := by
  rcases h with heq | ⟨c', k, hconn, heq⟩
  · rw [heq]
  · have hne : c' ≠ c := by
      rintro rfl
      exact hc hconn
    rw [heq, List.getElem?_set_ne hne]

/-- What the tasks of other connections, and the workers, leave alone. -/
theorem taskStep_other (hs : taskStep p w e = some (w', effs)) (haccept : e ≠ .run .accept)
    (hc : e.conn ≠ some c) : w'.world.conns[c]? = w.world.conns[c]? := by
  cases taskStep_stepped hs with
  | @runs e world effs failed hs =>
    exact (owned_step hs fun heq => haccept (congrArg _ heq)).other hc
  | fails | selfHandlerPanics | handlerPanics | callbackPanics => rfl
  | @closes e c' k _ _ hconn =>
    have hne : c' ≠ c := by
      rintro rfl
      exact hc hconn
    exact List.getElem?_set_ne hne
  | @abandons c' t =>
    have hne : c' ≠ c := by
      rintro rfl
      exact hc rfl
    exact List.getElem?_set_ne hne

/-! ### Dealing with a message -/

theorem InHand.mono {dead dead' : List ℕ} {rest : List UInt8} {ms : List (RegisterCommand × Bool)}
    (h : InHand p key dead k rest ms) (hsub : ∀ s ∈ dead, s ∈ dead') : InHand p key dead' k rest ms := by
  cases h with
  | reading => exact .reading
  | ended heof => exact .ended heof
  | acquiring hlt => exact .acquiring hlt
  | sending hlt => exact .sending hlt
  | replyingHmac => exact .replyingHmac
  | replyingSector hge => exact .replyingSector hge
  | panicked hlt hdead => exact .panicked hlt (hsub _ hdead)

/-- What the task of connection `c` has done in a step: it is done with some of the messages, which have
    become what they are to become, and has the others in hand. -/
structure Dealt (p : Config) (key : List UInt8) (c : ℕ) (w w' : Tasks) (rest : List UInt8)
    (ms : List (RegisterCommand × Bool)) (k' : Conn) (done inHand : List (RegisterCommand × Bool)) : Prop where
  conn : w'.world.conns[c]? = some k'
  hand : InHand p key w'.dead k' rest inHand
  messages : ms = done ++ inHand
  delivered : pushed w.world w'.world = done.filterMap (route p)
  refused : newlyWritten w.world w'.world = done.filterMap (refuse p c)

theorem newlyWritten_same {w w' : World} (h : w'.written = w.written) : newlyWritten w w' = [] := by
  simp [newlyWritten, h]

theorem refuse_known (cmd : ClientRegisterCommand) (hlt : cmd.header.sectorIdx < p.nSectors) :
    refuse p c (.client cmd, true) = none := by
  simp [refuse, hlt]

/-- A response without content to a client command is the refusal that the protocol has for it. -/
theorem constructResponse_refusal {cmd : ClientRegisterCommand} {x : UInt64 × UInt8} (status : StatusCode)
    (hmsg : getRidAndMsgType (.client cmd) = some x) :
    constructResponse p.hmac p.hmacClientKey status x.2 x.1 [] =
      refusal p status.toU8 (responseType cmd.content) cmd.header.requestIdentifier := by
  obtain ⟨header, content⟩ := cmd
  have hbytes : constructResponse p.hmac p.hmacClientKey status x.2 x.1 [] =
      refusal p status.toU8 (x.2 + 0x40) x.1 := by
    rw [constructResponse, List.append_nil]
    rfl
  rw [hbytes]
  cases content with
  | read =>
    obtain rfl : (header.requestIdentifier, 0x01) = x := Option.some.inj hmsg
    rfl
  | write data =>
    obtain rfl : (header.requestIdentifier, 0x02) = x := Option.some.inj hmsg
    rfl

/-- Only a connection that is reading takes a message. -/
theorem reading_of_receive {cmd : RegisterCommand} {ok : Bool}
    (hs : taskStep p w (.run (.receive c cmd ok)) = some (w', effs)) :
    w.world.conns[c]? = some .reading := by
  have hruns : w.runs p (.receive c cmd ok) = some (w', effs) → w.world.conns[c]? = some .reading := by
    intro hs
    obtain ⟨world, hstep, -⟩ := Tasks.runs_eq hs
    cases step_stepped hstep with
    | take hc | refuseHmac hc | refuseSector hc | deliver hc | misdirect hc | ignore hc => exact hc
  rcases cmd with cmd | cmd
  · exact hruns hs
  · cases ok with
    | false => exact hruns hs
    | true =>
      simp only [taskStep] at hs
      split at hs
      · split at hs
        · assumption
        · simp at hs
      · exact hruns hs

theorem reading_of_hangUp (hs : taskStep p w (.run (.hangUp c)) = some (w', effs)) :
    w.world.conns[c]? = some .reading := by
  obtain ⟨world, hstep, -⟩ := Tasks.runs_eq (show w.runs p _ = _ from hs)
  cases step_stepped hstep with
  | hangUp hc => exact hc

/-- A client command is taken up. -/
theorem dealt_client {cmd : ClientRegisterCommand} {ok : Bool} {rest : List UInt8}
    (hc : w.world.conns[c]? = some .reading)
    (hs : taskStep p w (.run (.receive c (.client cmd) ok)) = some (w', effs)) :
    ∃ k', Dealt p key c w w' rest [(.client cmd, ok)] k' [] [(.client cmd, ok)] := by
  obtain ⟨world, hstep, rfl⟩ := Tasks.runs_eq (show w.runs p _ = _ from hs)
  cases step_stepped hstep with
  | take _ hlt => exact ⟨_, getElem?_set_of hc, .acquiring hlt, rfl, pushed_same rfl, newlyWritten_same rfl⟩
  | refuseSector _ hge =>
    exact ⟨_, getElem?_set_of hc, .replyingSector hge, rfl, pushed_same rfl, newlyWritten_same rfl⟩
  | refuseHmac => exact ⟨_, getElem?_set_of hc, .replyingHmac, rfl, pushed_same rfl, newlyWritten_same rfl⟩

/-- A system command is delivered, or ignored if its tag is bad. -/
theorem dealt_system {cmd : SystemRegisterCommand} {ok : Bool} {rest : List UInt8}
    (hsound : Sound p w.world) (hc : w.world.conns[c]? = some .reading)
    (hsector : ok = true → cmd.header.sectorIdx < p.nSectors)
    (hs : taskStep p w (.run (.receive c (.system cmd) ok)) = some (w', effs)) :
    ∃ k' done inHand, Dealt p key c w w' rest [(.system cmd, ok)] k' done inHand := by
  cases ok with
  | false =>
    obtain ⟨world, hstep, rfl⟩ := Tasks.runs_eq (show w.runs p _ = _ from hs)
    simp only [step, hc] at hstep
    obtain ⟨rfl, rfl⟩ := Prod.mk.inj (Option.some.inj hstep)
    refine ⟨_, [(.system cmd, false)], [], hc, .reading, rfl, pushed_same rfl, newlyWritten_same rfl⟩
  | true =>
    have hlt := hsector rfl
    simp only [taskStep] at hs
    split at hs
    · rename_i hdead
      simp only [hc] at hs
      obtain ⟨rfl, rfl⟩ := Prod.mk.inj (Option.some.inj hs)
      exact ⟨_, [], [(.system cmd, true)], getElem?_set_of hc, .panicked hlt hdead, rfl, pushed_same rfl,
        newlyWritten_same rfl⟩
    · obtain ⟨world, hstep, rfl⟩ := Tasks.runs_eq hs
      simp only [step, hc] at hstep
      obtain ⟨rfl, rfl⟩ := Prod.mk.inj (Option.some.inj hstep)
      have hworker : cmd.header.sectorIdx.toNat < w.world.workers.length := by
        rw [hsound.workers]
        exact hlt
      have hk := List.getElem?_eq_getElem hworker
      refine ⟨.reading, [(.system cmd, true)], [], ?_, .reading, rfl, ?_, ?_⟩
      · simp [World.receive, World.enqueue, hk, hc]
      · rw [pushed_push hk (x := (.system cmd, none)) (by simp [World.receive, World.enqueue, hk])]
        simp [route, sectorOf, hlt]
      · rw [newlyWritten_same (by simp [World.receive, World.enqueue, hk])]
        rfl

/-- The stream has ended. -/
theorem dealt_hangUp {rest : List UInt8} {fault : Fault} (hc : w.world.conns[c]? = some .reading)
    (hvalid : FirstHeaderValid rest) (herr : deserializeRc p.hmac (keysOf p key) rest = .error fault)
    (hs : taskStep p w (.run (.hangUp c)) = some (w', effs)) :
    Dealt p key c w w' rest [] .closed [] [] := by
  obtain ⟨world, hstep, rfl⟩ := Tasks.runs_eq (show w.runs p _ = _ from hs)
  simp only [step, hc] at hstep
  obtain ⟨rfl, rfl⟩ := Prod.mk.inj (Option.some.inj hstep)
  obtain rfl := deserializeRc_error hvalid herr
  exact ⟨getElem?_set_of hc, .ended herr, rfl, pushed_same rfl, newlyWritten_same rfl⟩

/-- The permit of the sector is taken. -/
theorem dealt_acquire {rest : List UInt8} {ms : List (RegisterCommand × Bool)}
    (hc : w.world.conns[c]? = some k) (hk : InHand p key w.dead k rest ms)
    (hs : taskStep p w (.run (.acquire c)) = some (w', effs)) :
    ∃ k', Dealt p key c w w' rest ms k' [] ms := by
  obtain ⟨world, hstep, rfl⟩ := Tasks.runs_eq (show w.runs p _ = _ from hs)
  simp only [step, hc] at hstep
  cases hk with
  | acquiring hlt =>
    simp only at hstep
    split at hstep
    · obtain ⟨rfl, rfl⟩ := Prod.mk.inj (Option.some.inj hstep)
      exact ⟨_, getElem?_set_of hc, .sending hlt, rfl, pushed_same rfl, newlyWritten_same rfl⟩
    · simp at hstep
  | _ => simp at hstep

/-- The command is sent to the worker. -/
theorem dealt_send {rest : List UInt8} {ms : List (RegisterCommand × Bool)}
    (hc : w.world.conns[c]? = some k) (hk : InHand p key w.dead k rest ms)
    (hs : taskStep p w (.run (.send c)) = some (w', effs)) :
    ∃ k' done inHand, Dealt p key c w w' rest ms k' done inHand := by
  simp only [taskStep, hc] at hs
  cases hk with
  | @sending t rest hlt =>
    simp only at hs
    split at hs
    · rename_i hdead
      obtain ⟨rfl, rfl⟩ := Prod.mk.inj (Option.some.inj hs)
      exact ⟨_, [], [(.client t.cmd, true)], getElem?_set_of hc, .panicked hlt hdead, rfl, pushed_same rfl,
        newlyWritten_same rfl⟩
    · obtain ⟨world, hstep, rfl⟩ := Tasks.runs_eq hs
      simp only [step, hc] at hstep
      obtain ⟨k, hk, heq⟩ := Option.map_eq_some_iff.mp hstep
      obtain ⟨rfl, rfl⟩ := Prod.mk.inj heq
      refine ⟨_, [(.client t.cmd, true)], [], getElem?_set_of hc, .reading, rfl, ?_, ?_⟩
      · rw [pushed_push hk rfl]
        simp [route, sectorOf, hlt, Ticket.sector]
      · rw [List.filterMap_cons_none (refuse_known t.cmd hlt)]
        exact newlyWritten_same rfl
  | _ => simp at hs

/-- The refusal of a command is written, to a connection that takes everything. -/
theorem taskStep_reply {bytes : List UInt8} (hwritable : w.failed c = none) (hc : w.world.conns[c]? = some k)
    (hk : k = .replyingHmac t ∧ bytes = hmacRefusal p t ∨ k = .replyingSector t ∧ bytes = sectorRefusal p t) :
    taskStep p w (.run (.reply c)) = some ({ w.taken c bytes.length with world := { w.world with
      conns := w.world.conns.set c .reading
      written := w.world.written ++ [⟨c, t, bytes⟩] } }, []) := by
  have htakes : ∀ n, w.takes c n = true := fun n => by simp [Tasks.takes, hwritable]
  obtain ⟨x, hmsg⟩ := getRidAndMsgType_client t.cmd
  rcases hk with ⟨rfl, rfl⟩ | ⟨rfl, rfl⟩ <;>
    simp only [taskStep, hc, Tasks.replies, htakes, if_true, Tasks.runs, Tasks.taken, step, hmacRefusal,
      sectorRefusal, hmsg, Option.map_some, Option.elim_some]

/-- The refusal is written. -/
theorem dealt_reply {rest : List UInt8} {ms : List (RegisterCommand × Bool)}
    (hwritable : ∀ c, w.failed c = none) (hc : w.world.conns[c]? = some k)
    (hk : InHand p key w.dead k rest ms) (hs : taskStep p w (.run (.reply c)) = some (w', effs)) :
    Dealt p key c w w' rest ms .reading ms [] := by
  cases hk with
  | @replyingHmac t rest =>
    obtain ⟨x, hmsg⟩ := getRidAndMsgType_client t.cmd
    rw [taskStep_reply (hwritable c) hc (Or.inl ⟨rfl, rfl⟩)] at hs
    obtain ⟨rfl, rfl⟩ := Prod.mk.inj (Option.some.inj hs)
    refine ⟨getElem?_set_of hc, .reading, (List.append_nil _).symm, ?_, ?_⟩
    · rw [List.filterMap_cons_none (by simp [route])]
      exact pushed_same rfl
    · simp [newlyWritten, refuse, hmacRefusal, hmsg, constructInvalidHmacResponse, constructResponse_refusal _ hmsg,
        StatusCode.toU8]
  | @replyingSector t rest hge =>
    obtain ⟨x, hmsg⟩ := getRidAndMsgType_client t.cmd
    rw [taskStep_reply (hwritable c) hc (Or.inr ⟨rfl, rfl⟩)] at hs
    obtain ⟨rfl, rfl⟩ := Prod.mk.inj (Option.some.inj hs)
    refine ⟨getElem?_set_of hc, .reading, (List.append_nil _).symm, ?_, ?_⟩
    · rw [List.filterMap_cons_none (by simp [route, sectorOf, hge])]
      exact pushed_same rfl
    · simp [newlyWritten, refuse, hge, sectorRefusal, hmsg, constructInvalidSectorIndexResponse,
        constructResponse_refusal _ hmsg, StatusCode.toU8]
  | _ => simp [taskStep, hc] at hs

/-! ### Runs -/

/-- The steps of a process with its streams. -/
inductive WireStepped (p : Config) (key : List UInt8) (w : Connected) :
    WireEvent → Connected → List (Effect Ticket) → Prop
  | accepts {stream : List UInt8} {tasks : Tasks} {effs : List (Effect Ticket)} :
      taskStep p w.tasks (.run .accept) = some (tasks, effs) →
      WireStepped p key w (.accept stream) ⟨tasks, w.unread ++ [stream]⟩ effs
  | receives {c : ℕ} {stream rest : List UInt8} {cmd : RegisterCommand} {ok : Bool} {tasks : Tasks}
      {effs : List (Effect Ticket)} : w.unread[c]? = some stream →
      deserializeRc p.hmac (keysOf p key) stream = .ok ((cmd, ok), rest) →
      taskStep p w.tasks (.run (.receive c cmd ok)) = some (tasks, effs) →
      WireStepped p key w (.read c) ⟨tasks, w.unread.set c rest⟩ effs
  | hangsUp {c : ℕ} {stream : List UInt8} {fault : Fault} {tasks : Tasks} {effs : List (Effect Ticket)} :
      w.unread[c]? = some stream → deserializeRc p.hmac (keysOf p key) stream = .error fault →
      taskStep p w.tasks (.run (.hangUp c)) = some (tasks, effs) →
      WireStepped p key w (.read c) ⟨tasks, w.unread⟩ effs
  | goesOn {e : TaskEvent} {tasks : Tasks} {effs : List (Effect Ticket)} : e.inside = true →
      taskStep p w.tasks e = some (tasks, effs) → WireStepped p key w (.task e) ⟨tasks, w.unread⟩ effs

section runs

variable {w w' : Connected} {e : WireEvent} {x : WireEntry} {tr : List WireEntry} {stream rest : List UInt8}

theorem wireStep_stepped (hs : wireStep p key w e = some (w', effs)) : WireStepped p key w e w' effs := by
  cases e with
  | accept stream =>
    simp only [wireStep] at hs
    obtain ⟨⟨tasks, effs'⟩, htask, heq⟩ := Option.map_eq_some_iff.mp hs
    obtain ⟨rfl, rfl⟩ := Prod.mk.inj heq
    exact .accepts htask
  | read c =>
    simp only [wireStep] at hs
    split at hs
    · simp at hs
    · rename_i stream hstream
      split at hs
      · rename_i cmd ok rest hread
        obtain ⟨⟨tasks, effs'⟩, htask, heq⟩ := Option.map_eq_some_iff.mp hs
        obtain ⟨rfl, rfl⟩ := Prod.mk.inj heq
        exact .receives hstream hread htask
      · rename_i fault hread
        obtain ⟨⟨tasks, effs'⟩, htask, heq⟩ := Option.map_eq_some_iff.mp hs
        obtain ⟨rfl, rfl⟩ := Prod.mk.inj heq
        exact .hangsUp hstream hread htask
  | task e =>
    simp only [wireStep] at hs
    split at hs
    · rename_i hinside
      obtain ⟨⟨tasks, effs'⟩, htask, heq⟩ := Option.map_eq_some_iff.mp hs
      obtain ⟨rfl, rfl⟩ := Prod.mk.inj heq
      exact .goesOn hinside htask
    · simp at hs

/-- Every step is one of the tasks, and no connection fails. -/
theorem WireStepped.task (hs : WireStepped p key w e w' effs) :
    ∃ te, taskStep p w.tasks te = some (w'.tasks, effs) ∧ ∀ c k, te ≠ .fail c k := by
  cases hs with
  | accepts htask => exact ⟨_, htask, by simp⟩
  | receives _ _ htask => exact ⟨_, htask, by simp⟩
  | hangsUp _ _ htask => exact ⟨_, htask, by simp⟩
  | goesOn hinside htask =>
    refine ⟨_, htask, ?_⟩
    rintro c k rfl
    simp [TaskEvent.inside] at hinside

/-- What every state of a run has: every permit in one place, and all connections writable. -/
structure Steady (p : Config) (w : Connected) : Prop where
  sound : Sound p w.tasks.world
  writable : ∀ c, w.tasks.failed c = none

theorem steady_step (h : Steady p w) (hs : WireStepped p key w e w' effs) : Steady p w' := by
  obtain ⟨te, htask, hfail⟩ := hs.task
  have hstepped := taskStep_stepped htask
  refine ⟨sound_taskStep h.sound hstepped, fun c => ?_⟩
  generalize w'.tasks = tasks at hstepped
  cases hstepped with
  | runs _ _ hnone => exact hnone c (h.writable c)
  | fails => exact absurd rfl (hfail _ _)
  | _ => exact h.writable c

theorem dead_step (hs : WireStepped p key w e w' effs) : ∀ s ∈ w.tasks.dead, s ∈ w'.tasks.dead := by
  obtain ⟨te, htask, -⟩ := hs.task
  intro s hdead
  exact (dead_taskStep hdead (taskStep_stepped htask)).1

/-- The messages of a connection, one step later. -/
structure Advanced (p : Config) (key : List UInt8) (c : ℕ) (x : WireEntry) (rest : List UInt8)
    (ms : List (RegisterCommand × Bool)) (k' : Conn) (rest' : List UInt8)
    (done inHand : List (RegisterCommand × Bool)) : Prop where
  conn : x.post.tasks.world.conns[c]? = some k'
  unread : x.post.unread[c]? = some rest'
  hand : InHand p key x.post.tasks.dead k' rest' inHand
  decodes : Decodes p.hmac (keysOf p key) rest (messageIn p key c x) rest'
  messages : ms ++ messageIn p key c x = done ++ inHand
  delivered : deliveredIn c x = done.filterMap (route p)
  refused : refusedIn c x = done.filterMap (refuse p c)

theorem messageIn_other (hown : x.event.conn ≠ some c) : messageIn p key c x = [] := by
  unfold messageIn
  split
  · rename_i c' heq
    rw [if_neg]
    rintro rfl
    exact hown (by rw [heq]; rfl)
  · rfl

/-- A step that is not the connection's own. -/
theorem advanced_other {ms : List (RegisterCommand × Bool)}
    (hs : WireStepped p key x.pre x.event x.post x.out) (hown : x.event.conn ≠ some c)
    (hc : x.pre.tasks.world.conns[c]? = some k) (hu : x.pre.unread[c]? = some rest)
    (hhand : InHand p key x.pre.tasks.dead k rest ms) : Advanced p key c x rest ms k rest [] ms := by
  have hmessage : messageIn p key c x = [] := messageIn_other hown
  have hkept : x.post.tasks.world.conns[c]? = some k ∧ x.post.unread[c]? = some rest := by
    obtain ⟨w, e, effs, w'⟩ := x
    simp only at hs hown hc hu ⊢
    cases hs with
    | accepts htask =>
      obtain ⟨world, hstep, rfl⟩ := Tasks.runs_eq (show w.tasks.runs p _ = _ from htask)
      obtain ⟨rfl, rfl⟩ := Prod.mk.inj (Option.some.inj hstep)
      exact ⟨List.getElem?_append_left (List.getElem?_eq_some_iff.mp hc).1 ▸ hc,
        List.getElem?_append_left (List.getElem?_eq_some_iff.mp hu).1 ▸ hu⟩
    | @receives c' _ _ _ _ _ _ _ _ htask =>
      have hne : c' ≠ c := fun heq => hown (congrArg some heq)
      exact ⟨(taskStep_other htask (by simp) fun heq => hown heq).trans hc,
        (List.getElem?_set_ne hne).trans hu⟩
    | hangsUp _ _ htask => exact ⟨(taskStep_other htask (by simp) fun heq => hown heq).trans hc, hu⟩
    | @goesOn e _ _ hinside htask =>
      refine ⟨(taskStep_other htask ?_ hown).trans hc, hu⟩
      rintro rfl
      simp [TaskEvent.inside] at hinside
  refine ⟨hkept.1, hkept.2, hhand.mono (dead_step hs), by rw [hmessage]; rfl, by simp [hmessage], ?_, ?_⟩
  · rw [deliveredIn, if_neg hown]
    rfl
  · rw [refusedIn, if_neg hown]
    rfl

theorem Dealt.advanced {ms done inHand : List (RegisterCommand × Bool)} {k' : Conn} {rest' : List UInt8}
    (h : Dealt p key c x.pre.tasks x.post.tasks rest' (ms ++ messageIn p key c x) k' done inHand)
    (hown : x.event.conn = some c) (hu : x.post.unread[c]? = some rest')
    (hdecodes : Decodes p.hmac (keysOf p key) rest (messageIn p key c x) rest') :
    Advanced p key c x rest ms k' rest' done inHand := by
  refine ⟨h.conn, hu, h.hand, hdecodes, h.messages, ?_, ?_⟩
  · rw [deliveredIn, if_pos hown]
    exact h.delivered
  · rw [refusedIn, if_pos hown]
    exact h.refused

/-- A step of the connection's own task. -/
theorem advanced_own {ms : List (RegisterCommand × Bool)} (h : Steady p x.pre)
    (hs : WireStepped p key x.pre x.event x.post x.out) (hown : x.event.conn = some c)
    (hc : x.pre.tasks.world.conns[c]? = some k) (hu : x.pre.unread[c]? = some rest)
    (hproper : Proper p.hmac (keysOf p key) p.nSectors rest)
    (hhand : InHand p key x.pre.tasks.dead k rest ms) :
    ∃ k' rest' done inHand, Advanced p key c x rest ms k' rest' done inHand := by
  obtain ⟨w, e, effs, w'⟩ := x
  simp only at h hs hown hc hu hhand
  cases hs with
  | accepts => cases hown
  | @receives c' stream rest' cmd ok tasks effs hstream hread htask =>
    obtain rfl : c' = c := Option.some.inj hown
    obtain rfl : rest = stream := Option.some.inj (hu.symm.trans hstream)
    have hreading := reading_of_receive htask
    obtain rfl : k = .reading := Option.some.inj (hc.symm.trans hreading)
    cases hhand
    have hmessage : messageIn p key c' ⟨w, .read c', effs, ⟨tasks, w.unread.set c' rest'⟩⟩ = [(cmd, ok)] := by
      simp only [messageIn, if_true, hu, Option.map_some, hread]
    obtain ⟨k', done, inHand, hdealt⟩ : ∃ k' done inHand,
        Dealt p key c' w.tasks tasks rest' [(cmd, ok)] k' done inHand := by
      rcases cmd with cmd | cmd
      · obtain ⟨k', hdealt⟩ := dealt_client hreading htask
        exact ⟨k', _, _, hdealt⟩
      · refine dealt_system h.sound hreading ?_ htask
        rintro rfl
        exact hproper.sector [_] rest' ⟨rest', hread, rfl⟩ cmd (List.mem_singleton_self _)
    refine ⟨k', rest', done, inHand, Dealt.advanced ?_ rfl (getElem?_set_of hu) ?_⟩
    · rw [hmessage]
      exact hdealt
    · rw [hmessage]
      exact ⟨rest', hread, rfl⟩
  | @hangsUp c' stream fault tasks effs hstream hread htask =>
    obtain rfl : c' = c := Option.some.inj hown
    obtain rfl : rest = stream := Option.some.inj (hu.symm.trans hstream)
    have hreading := reading_of_hangUp htask
    obtain rfl : k = .reading := Option.some.inj (hc.symm.trans hreading)
    cases hhand
    have hmessage : messageIn p key c' ⟨w, .read c', effs, ⟨tasks, w.unread⟩⟩ = [] := by
      simp only [messageIn, if_true, hu, Option.map_some, hread]
    refine ⟨.closed, rest, [], [], Dealt.advanced ?_ rfl hu ?_⟩
    · rw [hmessage]
      exact dealt_hangUp hreading (hproper.header [] rest rfl) hread htask
    · rw [hmessage]
      rfl
  | @goesOn e tasks effs hinside htask =>
    obtain ⟨k', done, inHand, hdealt⟩ : ∃ k' done inHand,
        Dealt p key c w.tasks tasks rest ms k' done inHand := by
      cases e with
      | fail | panics => cases hown
      | run e =>
        cases e with
        | acquire c' =>
          obtain rfl : c' = c := Option.some.inj hown
          obtain ⟨k', hdealt⟩ := dealt_acquire hc hhand htask
          exact ⟨k', _, _, hdealt⟩
        | send c' =>
          obtain rfl : c' = c := Option.some.inj hown
          exact dealt_send hc hhand htask
        | reply c' =>
          obtain rfl : c' = c := Option.some.inj hown
          exact ⟨_, _, _, dealt_reply h.writable hc hhand htask⟩
        | receive | hangUp => simp [TaskEvent.inside] at hinside
        | _ => cases hown
    refine ⟨k', rest, done, inHand, Dealt.advanced ?_ hown hu rfl⟩
    rw [show messageIn p key c ⟨w, .task e, effs, ⟨tasks, w.unread⟩⟩ = [] from rfl, List.append_nil]
    exact hdealt

/-- The messages of a connection on which `stream` arrives: those read so far are those handled and the
    one in hand, and the ones handled have become what they were to become. -/
structure Filtered (p : Config) (key : List UInt8) (c : ℕ) (stream : List UInt8) (tr : List WireEntry)
    (w : Connected) (handled inHand : List (RegisterCommand × Bool)) : Prop where
  read : ∃ k rest, w.tasks.world.conns[c]? = some k ∧ w.unread[c]? = some rest ∧
    Decodes p.hmac (keysOf p key) stream (readBy p key c tr) rest ∧ InHand p key w.tasks.dead k rest inHand
  messages : readBy p key c tr = handled ++ inHand
  delivered : deliveredBy c tr = handled.filterMap (route p)
  refused : refusedBy c tr = handled.filterMap (refuse p c)

theorem Filtered.next {handled inHand : List (RegisterCommand × Bool)}
    (hsteady : Steady p x.pre) (hs : WireStepped p key x.pre x.event x.post x.out)
    (hproper : Proper p.hmac (keysOf p key) p.nSectors stream)
    (h : Filtered p key c stream tr x.pre handled inHand) :
    ∃ handled inHand, Filtered p key c stream (tr ++ [x]) x.post handled inHand := by
  obtain ⟨⟨k, rest, hc, hu, hdecodes, hhand⟩, hmessages, hdelivered, hrefused⟩ := h
  obtain ⟨k', rest', done, inHand', hadv⟩ : ∃ k' rest' done inHand',
      Advanced p key c x rest inHand k' rest' done inHand' := by
    by_cases hown : x.event.conn = some c
    · exact advanced_own hsteady hs hown hc hu (hproper.decodes hdecodes) hhand
    · exact ⟨_, _, _, _, advanced_other hs hown hc hu hhand⟩
  refine ⟨handled ++ done, inHand', ⟨k', rest', hadv.conn, hadv.unread, ?_, hadv.hand⟩, ?_, ?_, ?_⟩
  · rw [readBy, List.flatMap_append, List.flatMap_singleton]
    exact hdecodes.append hadv.decodes
  · rw [readBy, List.flatMap_append, List.flatMap_singleton]
    rw [readBy] at hmessages
    rw [hmessages, List.append_assoc, hadv.messages, List.append_assoc]
  · rw [deliveredBy, List.flatMap_append, List.flatMap_singleton, hadv.delivered, List.filterMap_append]
    exact congrArg (· ++ _) hdelivered
  · rw [refusedBy, List.flatMap_append, List.flatMap_singleton, hadv.refused, List.filterMap_append]
    exact congrArg (· ++ _) hrefused

/-- Only a connection that has been accepted makes a step. -/
theorem conn_lt (hs : WireStepped p key w e w' effs) (hown : e.conn = some c) :
    c < w.tasks.world.conns.length := by
  have hlt : ∀ {k : Conn}, w.tasks.world.conns[c]? = some k → c < w.tasks.world.conns.length :=
    fun hc => (List.getElem?_eq_some_iff.mp hc).1
  cases hs with
  | accepts => cases hown
  | receives _ _ htask =>
    obtain rfl := Option.some.inj hown
    exact hlt (reading_of_receive htask)
  | hangsUp _ _ htask =>
    obtain rfl := Option.some.inj hown
    exact hlt (reading_of_hangUp htask)
  | @goesOn e tasks effs hinside htask =>
    cases hc : w.tasks.world.conns[c]? with
    | some k => exact hlt hc
    | none =>
      cases e with
      | fail | panics => cases hown
      | run e =>
        cases e with
        | acquire c' | send c' | reply c' =>
          obtain rfl : c' = c := Option.some.inj hown
          simp [taskStep, Tasks.runs, step, hc] at htask
        | receive | hangUp => simp [TaskEvent.inside] at hinside
        | _ => cases hown

/-- What holds along a run with its streams. -/
structure Ledger (p : Config) (key : List UInt8) (tr : List WireEntry) (w : Connected) : Prop where
  steady : Steady p w
  conns : w.tasks.world.conns.length = (accepted tr).length
  unread : w.unread.length = (accepted tr).length
  proper : ∀ stream ∈ accepted tr, Proper p.hmac (keysOf p key) p.nSectors stream
  fresh : ∀ c, (accepted tr).length ≤ c → readBy p key c tr = [] ∧ deliveredBy c tr = [] ∧ refusedBy c tr = []
  filtered : ∀ c stream, (accepted tr)[c]? = some stream →
    ∃ handled inHand, Filtered p key c stream tr w handled inHand

/-- Nothing happens on a connection before it is accepted. -/
theorem Ledger.fresh_next (h : Ledger p key tr x.pre) (hs : WireStepped p key x.pre x.event x.post x.out)
    (hc : (accepted tr).length ≤ c) :
    readBy p key c (tr ++ [x]) = [] ∧ deliveredBy c (tr ++ [x]) = [] ∧ refusedBy c (tr ++ [x]) = [] := by
  have hown : x.event.conn ≠ some c := by
    intro hown
    have hlt := conn_lt hs hown
    rw [h.conns] at hlt
    omega
  obtain ⟨hread, hdelivered, hrefused⟩ := h.fresh c hc
  simp only [readBy, deliveredBy, refusedBy, List.flatMap_append, List.flatMap_singleton] at *
  rw [hread, hdelivered, hrefused, messageIn_other hown, deliveredIn, refusedIn, if_neg hown, if_neg hown]
  exact ⟨rfl, rfl, rfl⟩

/-- A step that accepts no connection. -/
theorem Ledger.next (h : Ledger p key tr x.pre) (hs : WireStepped p key x.pre x.event x.post x.out)
    (haccepted : accepted (tr ++ [x]) = accepted tr)
    (hconns : x.post.tasks.world.conns.length = x.pre.tasks.world.conns.length)
    (hunread : x.post.unread.length = x.pre.unread.length) : Ledger p key (tr ++ [x]) x.post := by
  refine ⟨steady_step h.steady hs, ?_, ?_, ?_, ?_, ?_⟩
  · rw [hconns, haccepted, h.conns]
  · rw [hunread, haccepted, h.unread]
  · rw [haccepted]
    exact h.proper
  · intro c hc
    exact h.fresh_next hs (haccepted ▸ hc)
  · intro c stream hstream
    rw [haccepted] at hstream
    obtain ⟨handled, inHand, hfiltered⟩ := h.filtered c stream hstream
    exact hfiltered.next h.steady hs (h.proper stream (List.mem_of_getElem? hstream))

/-- A connection is accepted. -/
theorem Ledger.accepts (h : Ledger p key tr x.pre) (hs : WireStepped p key x.pre x.event x.post x.out)
    (hproper : Proper p.hmac (keysOf p key) p.nSectors stream) (hevent : x.event = .accept stream)
    (hconns : x.post.tasks.world.conns = x.pre.tasks.world.conns ++ [.reading])
    (hunread : x.post.unread = x.pre.unread ++ [stream]) : Ledger p key (tr ++ [x]) x.post := by
  have haccepted : accepted (tr ++ [x]) = accepted tr ++ [stream] := by
    simp [accepted, hevent]
  refine ⟨steady_step h.steady hs, ?_, ?_, ?_, ?_, ?_⟩
  · rw [hconns, haccepted, List.length_append, List.length_append, h.conns]
    rfl
  · rw [hunread, haccepted, List.length_append, List.length_append, h.unread]
  · rw [haccepted]
    exact forall_mem_snoc h.proper hproper
  · intro c hc
    rw [haccepted, List.length_append] at hc
    exact h.fresh_next hs (by omega)
  · intro c stream' hstream
    rw [haccepted, List.getElem?_append] at hstream
    split at hstream
    · obtain ⟨handled, inHand, hfiltered⟩ := h.filtered c stream' hstream
      exact hfiltered.next h.steady hs (h.proper stream' (List.mem_of_getElem? hstream))
    · -- the new connection, on which nothing has been read
      rename_i hge
      obtain ⟨rfl, rfl⟩ : c = (accepted tr).length ∧ stream = stream' := by
        rw [List.getElem?_singleton] at hstream
        split at hstream
        · exact ⟨by omega, Option.some.inj hstream⟩
        · simp at hstream
      obtain ⟨hread, hdelivered, hrefused⟩ := h.fresh_next hs le_rfl
      refine ⟨[], [], ⟨.reading, stream, ?_, ?_, ?_, .reading⟩, hread, hdelivered, hrefused⟩
      · rw [hconns, ← h.conns, List.getElem?_concat_length]
      · rw [hunread, ← h.unread, List.getElem?_concat_length]
      · rw [hread]
        rfl

theorem taskStep_length {w w' : Tasks} {e : TaskEvent} (hs : taskStep p w e = some (w', effs))
    (haccept : e ≠ .run .accept) : w'.world.conns.length = w.world.conns.length := by
  cases taskStep_stepped hs with
  | @runs e world effs failed hs =>
    rcases owned_step hs fun heq => haccept (congrArg _ heq) with heq | ⟨c, k, -, heq⟩
    · rw [heq]
    · rw [heq, List.length_set]
  | fails | selfHandlerPanics | handlerPanics | callbackPanics => rfl
  | closes => exact List.length_set
  | abandons => exact List.length_set

theorem ledger_step (h : Ledger p key tr x.pre)
    (hproper : ∀ stream, x.event = .accept stream → Proper p.hmac (keysOf p key) p.nSectors stream)
    (hs : WireStepped p key x.pre x.event x.post x.out) : Ledger p key (tr ++ [x]) x.post := by
  have hsteps := hs
  obtain ⟨w, e, effs, w'⟩ := x
  simp only at h hs hproper
  cases hs with
  | @accepts stream tasks effs htask =>
    obtain ⟨world, hstep, rfl⟩ := Tasks.runs_eq (show w.tasks.runs p _ = _ from htask)
    obtain ⟨rfl, rfl⟩ := Prod.mk.inj (Option.some.inj hstep)
    exact h.accepts hsteps (hproper stream rfl) rfl rfl rfl
  | receives hstream hread htask =>
    refine h.next hsteps (by simp [accepted]) (taskStep_length htask (by simp)) (by simp)
  | hangsUp hstream hread htask =>
    exact h.next hsteps (by simp [accepted]) (taskStep_length htask (by simp)) rfl
  | goesOn hinside htask =>
    refine h.next hsteps (by simp [accepted]) (taskStep_length htask ?_) rfl
    rintro rfl
    simp [TaskEvent.inside] at hinside

theorem ledger (hr : WireRun p key tr w) : Ledger p key tr w := by
  refine hr.invariant (I := Ledger p key) ?_ ?_
  · exact ⟨⟨sound_init p, fun _ => rfl⟩, rfl, rfl, by simp [accepted], fun _ _ => ⟨rfl, rfl, rfl⟩,
      by simp [accepted]⟩
  · intro tr x _ h hproper hs
    exact ledger_step h hproper (wireStep_stepped hs)

end runs

end AtomicDisk.Process
