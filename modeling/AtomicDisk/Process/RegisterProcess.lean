import AtomicDisk.Register.AtomicRegister
import AtomicDisk.Schemes.Run
import AtomicDisk.Transfer.TransferOperations

/-! One process (`register_process.rs`): a task for each connection, a worker for each sector, and for
    each sector a semaphore with one permit, which a client command takes with it on its way.

        connection                        worker of the sector
        ──────────                        ────────────────────
        reading ──receive──▶ acquiring    queue ──work──▶ register ──callback──▶ respond ──▶ release
           ▲                     │ permit   ▲                                                   │
           └──────send────── sending ───────┘              permit ◀─────────────────────────────┘

    System messages, from connections and from the process itself, go to the queues without a permit. A
    worker runs a handler to its end and then, if it has invoked the callback, that callback, before it
    takes the next command. A step that panics in a worker is not enabled. -/

namespace AtomicDisk.Process
open Schemes Register Transfer

/-! ### Responses -/

/-- `get_rid_and_msg_type`; `none` is its panic. -/
def getRidAndMsgType : RegisterCommand → Option (UInt64 × UInt8)
  | .client ⟨header, .read⟩ => some (header.requestIdentifier, 0x01)
  | .client ⟨header, .write _⟩ => some (header.requestIdentifier, 0x02)
  | .system _ => none

/-- A response: header, request identifier, content, and the tag of all of it. -/
def constructResponse (h : Hmac) (hmacClientKey : List UInt8) (status : StatusCode) (msgType : UInt8)
    (requestIdentifier : UInt64) (content : List UInt8) : List UInt8 :=
  let responseMsgType := msgType + 0x40
  let buf := magicNumber ++ [0, 0, status.toU8, responseMsgType] ++ toBeBytes requestIdentifier ++ content
  buf ++ ((Mac.newFromSlice hmacClientKey).update buf).finalize h

/-- `construct_valid_response`. -/
def constructValidResponse (h : Hmac) (opSuccess : OperationSuccess) (hmacClientKey : List UInt8)
    (msgType : UInt8) (requestIdentifier : UInt64) : List UInt8 :=
  constructResponse h hmacClientKey .ok msgType requestIdentifier
    (match opSuccess.opReturn with
      | .read readData => readData.data
      | .write => [])

/-- `construct_invalid_hmac_response`. -/
def constructInvalidHmacResponse (h : Hmac) (hmacClientKey : List UInt8) (msgType : UInt8)
    (requestIdentifier : UInt64) : List UInt8 :=
  constructResponse h hmacClientKey .authFailure msgType requestIdentifier []

/-- `construct_invalid_sector_index_response`. -/
def constructInvalidSectorIndexResponse (h : Hmac) (hmacClientKey : List UInt8) (msgType : UInt8)
    (requestIdentifier : UInt64) : List UInt8 :=
  constructResponse h hmacClientKey .invalidSectorIndex msgType requestIdentifier []

/-! ### The process -/

/-- A client command that has been received: which it is, and what `success_callback` captures of it (the
    command and the connection to respond on; the permit is that of its sector). -/
structure Ticket where
  /-- how many client commands the process had received before -/
  number : ℕ
  conn : ℕ
  cmd : ClientRegisterCommand
  deriving DecidableEq

/-- The sector the command is for. -/
def Ticket.sector (t : Ticket) : ℕ := t.cmd.header.sectorIdx.toNat

/-- What the task of a connection is about to do. -/
inductive Conn where
  /-- deserialize the next command -/
  | reading
  /-- wait for the permit of the sector -/
  | acquiring (t : Ticket)
  /-- send command and callback to the worker, with the permit -/
  | sending (t : Ticket)
  /-- write the response that the HMAC is invalid -/
  | replyingHmac (t : Ticket)
  /-- write the response that the sector index is invalid -/
  | replyingSector (t : Ticket)
  | closed

/-- The part of a callback that is still to be run. -/
inductive Running where
  | respond (t : Ticket) (opSuccess : OperationSuccess)
  /-- `drop(guard)` -/
  | release (t : Ticket)

/-- `run_ar_worker`, with its channel. -/
structure Worker where
  queue : List (RegisterCommand × Option Ticket)
  register : AtomicRegisterState Ticket
  running : Option Running

/-- `tx.send`: the channel is unbounded. -/
def Worker.push (k : Worker) (item : RegisterCommand × Option Ticket) : Worker :=
  { k with queue := k.queue ++ [item] }

/-- What has been written to a connection, and for which command. -/
structure Response where
  conn : ℕ
  ticket : Ticket
  bytes : List UInt8

structure World where
  conns : List Conn
  /-- the permits left, for each sector -/
  guards : List ℕ
  workers : List Worker
  written : List Response
  /-- how many client commands have been received -/
  received : ℕ

/-- What is fixed for a run; `sectors` is what the sectors manager has recovered. -/
structure Config where
  hmac : Hmac
  hmacClientKey : List UInt8
  nSectors : UInt64
  selfIdent : UInt8
  processesCount : UInt8
  overflowChecks : Bool
  sectors : ℕ → SectorVec × UInt64 × UInt8

inductive Event where
  | accept
  /-- `deserialize_register_command` returns a command and whether its HMAC is valid -/
  | receive (c : ℕ) (cmd : RegisterCommand) (hmacOk : Bool)
  /-- `deserialize_register_command` fails, which ends the task -/
  | hangUp (c : ℕ)
  | acquire (c : ℕ)
  | send (c : ℕ)
  | reply (c : ℕ)
  /-- `handle_self_messages` -/
  | selfMessage (cmd : SystemRegisterCommand)
  | work (s : ℕ) (uuid : Uuid) (order : IterOrder UInt8 ReadEntry)
  | respond (s : ℕ)
  | release (s : ℕ)

/-- Send a system command to the worker of its sector; `none` if there is no such worker. -/
def World.enqueue (w : World) (cmd : SystemRegisterCommand) : Option World :=
  let s := cmd.header.sectorIdx.toNat
  w.workers[s]?.map fun k =>
    { w with workers := w.workers.set s (k.push (.system cmd, none)) }

/-- What `accept_connections` does with a command. -/
def World.receive (p : Config) (w : World) (c : ℕ) : RegisterCommand → Bool → World
  | .client cmd, true =>
    if cmd.header.sectorIdx < p.nSectors then
      { w with conns := w.conns.set c (.acquiring ⟨w.received, c, cmd⟩), received := w.received + 1 }
    else
      { w with conns := w.conns.set c (.replyingSector ⟨w.received, c, cmd⟩)
               received := w.received + 1 }
  | .system cmd, true =>
    -- without a worker for the sector, `expect` ends the task
    (w.enqueue cmd).getD { w with conns := w.conns.set c .closed }
  | .client cmd, false =>
    { w with conns := w.conns.set c (.replyingHmac ⟨w.received, c, cmd⟩), received := w.received + 1 }
  | .system _, false => w

/-- The callback that a handler has invoked. -/
def invoked (effs : List (Effect Ticket)) : Option Running :=
  effs.findSome? fun
    | .callback t opSuccess => some (.respond t opSuccess)
    | _ => none

/-- One step of the process, with the effects of the handler that has run in it. -/
def step (p : Config) (w : World) : Event → Option (World × List (Effect Ticket))
  | .accept => some ({ w with conns := w.conns ++ [.reading] }, [])
  | .receive c cmd hmacOk =>
    match w.conns[c]? with
    | some .reading => some (w.receive p c cmd hmacOk, [])
    | _ => none
  | .hangUp c =>
    match w.conns[c]? with
    | some .reading => some ({ w with conns := w.conns.set c .closed }, [])
    | _ => none
  | .acquire c =>
    match w.conns[c]? with
    | some (.acquiring t) =>
      match w.guards[t.sector]? with
      | some (permits + 1) =>
        some ({ w with conns := w.conns.set c (.sending t), guards := w.guards.set t.sector permits }, [])
      | _ => none
    | _ => none
  | .send c =>
    match w.conns[c]? with
    | some (.sending t) =>
      w.workers[t.sector]?.map fun k =>
        ({ w with
          conns := w.conns.set c .reading
          workers := w.workers.set t.sector (k.push (.client t.cmd, some t)) }, [])
    | _ => none
  | .reply c =>
    match w.conns[c]? with
    | some (.replyingHmac t) =>
      (getRidAndMsgType (.client t.cmd)).map fun (rid, msgType) =>
        ({ w with
          conns := w.conns.set c .reading
          written := w.written ++
            [⟨c, t, constructInvalidHmacResponse p.hmac p.hmacClientKey msgType rid⟩] }, [])
    | some (.replyingSector t) =>
      (getRidAndMsgType (.client t.cmd)).map fun (rid, msgType) =>
        ({ w with
          conns := w.conns.set c .reading
          written := w.written ++
            [⟨c, t, constructInvalidSectorIndexResponse p.hmac p.hmacClientKey msgType rid⟩] }, [])
    | _ => none
  | .selfMessage cmd => (w.enqueue cmd).map fun w => (w, [])
  | .work s uuid order =>
    match w.workers[s]? with
    | some ⟨(cmd, callback) :: queue, register, none⟩ =>
      (match cmd with
        | .client c => callback.map fun t => clientCommand register c t uuid
        | .system c => systemCommand p.overflowChecks order register c).map fun (register, effs) =>
          ({ w with workers := w.workers.set s ⟨queue, register, invoked effs⟩ }, effs)
    | _ => none
  | .respond s =>
    match w.workers[s]? with
    | some ⟨queue, register, some (.respond t opSuccess)⟩ =>
      (getRidAndMsgType (.client t.cmd)).map fun (rid, msgType) =>
        ({ w with
          workers := w.workers.set s ⟨queue, register, some (.release t)⟩
          written := w.written ++
            [⟨t.conn, t, constructValidResponse p.hmac opSuccess p.hmacClientKey msgType rid⟩] }, [])
    | _ => none
  | .release s =>
    match w.workers[s]? with
    | some ⟨queue, register, some (.release t)⟩ =>
      some ({ w with
        workers := w.workers.set s ⟨queue, register, none⟩
        guards := w.guards.modify t.sector (· + 1) }, [])
    | _ => none

/-- `RegisterProcessState::new`, and nobody connected. -/
def init (p : Config) : World where
  conns := []
  guards := List.replicate p.nSectors.toNat 1
  workers := (List.range p.nSectors.toNat).map fun i =>
    ⟨[], buildAtomicRegister p.selfIdent (UInt64.ofNat i) p.processesCount (p.sectors i), none⟩
  written := []
  received := 0

abbrev Trace := List (Entry World Event (List (Effect Ticket)))

/-- Runs of the process, with their traces. -/
abbrev ProcessRun (p : Config) (tr : Trace) (w : World) : Prop :=
  Run (step p) (fun _ _ => True) (init p) tr w

end AtomicDisk.Process
