import AtomicDisk.Process.Tasks
import AtomicDisk.Transfer.Frames

/-! A process with the bytes that arrive on its connections. The task of a connection reads a message with
    `deserialize_rc`, deals with it, and only then reads the next:

        stream │ handled │ in hand │ unread
                 │
                 ├─ valid tag, sector known    ──▶ worker of the sector
                 ├─ valid tag, unknown sector  ──▶ InvalidSectorIndex   (client)
                 ├─ bad tag, client command    ──▶ AuthFailure
                 └─ bad tag, system command    ──▶ nothing

    The connections stay writable here. Handlers may panic, which ends the tasks that send to them. -/

namespace AtomicDisk.Process
open Schemes Register Transfer

/-! ### The machine -/

structure Connected where
  tasks : Tasks
  /-- what is left of the stream of each connection -/
  unread : List (List UInt8)

inductive WireEvent where
  /-- a connection is accepted, on which this stream arrives -/
  | accept (stream : List UInt8)
  /-- `deserialize_register_command` returns -/
  | read (c : ℕ)
  | task (e : TaskEvent)

/-- The steps that take nothing from a stream, with connections that stay writable. -/
def TaskEvent.inside : TaskEvent → Bool
  | .run .accept | .run (.receive ..) | .run (.hangUp _) | .fail .. => false
  | _ => true

def keysOf (p : Config) (key : List UInt8) : Keys := ⟨key, p.hmacClientKey⟩

/-- One step of a process with system key `key`. -/
def wireStep (p : Config) (key : List UInt8) (w : Connected) :
    WireEvent → Option (Connected × List (Effect Ticket))
  | .accept stream => (taskStep p w.tasks (.run .accept)).map fun (tasks, effs) =>
      (⟨tasks, w.unread ++ [stream]⟩, effs)
  | .read c =>
    match w.unread[c]? with
    | none => none
    | some stream =>
      match deserializeRc p.hmac (keysOf p key) stream with
      | .ok ((cmd, hmacOk), rest) =>
        (taskStep p w.tasks (.run (.receive c cmd hmacOk))).map fun (tasks, effs) =>
          (⟨tasks, w.unread.set c rest⟩, effs)
      | .error _ =>
        (taskStep p w.tasks (.run (.hangUp c))).map fun (tasks, effs) => (⟨tasks, w.unread⟩, effs)
  | .task e =>
    if e.inside = true then
      (taskStep p w.tasks e).map fun (tasks, effs) => (⟨tasks, w.unread⟩, effs)
    else none

abbrev WireEntry := Entry Connected WireEvent (List (Effect Ticket))

/-- Runs in which every header that arrives has a valid message type, and every system command with a
    valid tag is for one of the sectors. -/
abbrev WireRun (p : Config) (key : List UInt8) (tr : List WireEntry) (w : Connected) : Prop :=
  Run (wireStep p key) (fun _ e => ∀ stream, e = .accept stream →
    Proper p.hmac (keysOf p key) p.nSectors stream) ⟨initTasks p, []⟩ tr w

/-! ### What can be observed of a connection -/

/-- The stream that an event brings. -/
@[simp] def WireEvent.stream : WireEvent → Option (List UInt8)
  | .accept stream => some stream
  | _ => none

/-- The streams that arrive, in the order of the connections. -/
def accepted (tr : List WireEntry) : List (List UInt8) := tr.filterMap fun x => x.event.stream

theorem accepted_eq (tr : List WireEntry) : accepted tr = (tr.map Entry.event).filterMap WireEvent.stream := by
  rw [List.filterMap_map]
  rfl

/-- The connection whose task makes the step. -/
def WireEvent.conn : WireEvent → Option ℕ
  | .accept _ => none
  | .read c => some c
  | .task e => e.conn

/-- The message that is read on connection `c` in a step. -/
def messageIn (p : Config) (key : List UInt8) (c : ℕ) (x : WireEntry) : List (RegisterCommand × Bool) :=
  match x.event with
  | .read c' =>
    if c' = c then
      match (x.pre.unread[c]?).map (deserializeRc p.hmac (keysOf p key)) with
      | some (.ok (m, _)) => [m]
      | _ => []
    else []
  | _ => []

/-- What has been put into the queues of the workers, with the number of the worker. -/
def pushed (w w' : World) : List (ℕ × RegisterCommand) :=
  (List.range w'.workers.length).flatMap fun s =>
    match w.workers[s]?, w'.workers[s]? with
    | some k, some k' => (k'.queue.drop k.queue.length).map fun x => (s, x.1)
    | _, _ => []

/-- The responses that have been written, with the connection they go to. -/
def newlyWritten (w w' : World) : List (ℕ × List UInt8) :=
  (w'.written.drop w.written.length).map fun r => (r.conn, r.bytes)

/-- The commands that the task of connection `c` delivers in a step. -/
def deliveredIn (c : ℕ) (x : WireEntry) : List (ℕ × RegisterCommand) :=
  if x.event.conn = some c then pushed x.pre.tasks.world x.post.tasks.world else []

/-- The responses that the task of connection `c` writes in a step. -/
def refusedIn (c : ℕ) (x : WireEntry) : List (ℕ × List UInt8) :=
  if x.event.conn = some c then newlyWritten x.pre.tasks.world x.post.tasks.world else []

/-- The messages read on connection `c`. -/
def readBy (p : Config) (key : List UInt8) (c : ℕ) (tr : List WireEntry) : List (RegisterCommand × Bool) :=
  tr.flatMap (messageIn p key c)

def deliveredBy (c : ℕ) (tr : List WireEntry) : List (ℕ × RegisterCommand) := tr.flatMap (deliveredIn c)

def refusedBy (c : ℕ) (tr : List WireEntry) : List (ℕ × List UInt8) := tr.flatMap (refusedIn c)

/-! ### What is to become of a message -/

def sectorOf : RegisterCommand → UInt64
  | .client cmd => cmd.header.sectorIdx
  | .system cmd => cmd.header.sectorIdx

/-- Where a message is to be delivered. -/
def route (p : Config) (m : RegisterCommand × Bool) : Option (ℕ × RegisterCommand) :=
  if m.2 = true ∧ sectorOf m.1 < p.nSectors then some ((sectorOf m.1).toNat, m.1) else none

/-- A response without content, as the protocol has it: the magic number, two bytes of padding, the status, the
    type, the request identifier, and the tag of these. -/
def refusal (p : Config) (status type : UInt8) (rid : UInt64) : List UInt8 :=
  let buf := magicNumber ++ [0, 0, status, type] ++ toBeBytes rid
  buf ++ p.hmac.tag p.hmacClientKey buf

/-- The type of a response: that of the command, plus 0x40. -/
def responseType : ClientRegisterCommandContent → UInt8
  | .read => 0x41
  | .write _ => 0x42

/-- How a message is to be refused on connection `c`: a client command with a bad tag by AuthFailure, one for an
    unknown sector by InvalidSectorIndex, a system command not at all. -/
def refuse (p : Config) (c : ℕ) : RegisterCommand × Bool → Option (ℕ × List UInt8)
  | (.system _, _) => none
  | (.client cmd, ok) =>
    if ok = false then some (c, refusal p 0x01 (responseType cmd.content) cmd.header.requestIdentifier)
    else if cmd.header.sectorIdx < p.nSectors then none
    else some (c, refusal p 0x02 (responseType cmd.content) cmd.header.requestIdentifier)

/-- What the task of a connection is in the middle of, with what it has not read yet. -/
inductive InHand (p : Config) (key : List UInt8) (dead : List ℕ) :
    Conn → List UInt8 → List (RegisterCommand × Bool) → Prop
  | reading {rest : List UInt8} : InHand p key dead .reading rest []
  | ended {rest : List UInt8} : deserializeRc p.hmac (keysOf p key) rest = .error .unexpectedEof →
      InHand p key dead .closed rest []
  | acquiring {t : Ticket} {rest : List UInt8} : t.cmd.header.sectorIdx < p.nSectors →
      InHand p key dead (.acquiring t) rest [(.client t.cmd, true)]
  | sending {t : Ticket} {rest : List UInt8} : t.cmd.header.sectorIdx < p.nSectors →
      InHand p key dead (.sending t) rest [(.client t.cmd, true)]
  | replyingHmac {t : Ticket} {rest : List UInt8} :
      InHand p key dead (.replyingHmac t) rest [(.client t.cmd, false)]
  | replyingSector {t : Ticket} {rest : List UInt8} : ¬ t.cmd.header.sectorIdx < p.nSectors →
      InHand p key dead (.replyingSector t) rest [(.client t.cmd, true)]
  /-- the worker that the message is for has panicked, and so has the task -/
  | panicked {cmd : RegisterCommand} {rest : List UInt8} : sectorOf cmd < p.nSectors →
      (sectorOf cmd).toNat ∈ dead → InHand p key dead .closed rest [(cmd, true)]

end AtomicDisk.Process
