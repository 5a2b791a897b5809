import AtomicDisk.Node.Durable
import AtomicDisk.Node.Tickets

/-! All processes together. Every process is the whole of `run_register_process`, with its tasks, its register
    client, its sectors manager and its directory; what is between them are byte streams. `handle_writing` puts
    the bytes of a message into the stream that its process has opened, and the other end reads what has
    arrived of them:

        process i ──handle_writing──▶ wire ──accept──▶ connection c of process t ──deserialize_rc──▶ queues
        client    ──bytes───────────▶ wire ──accept──▶ connection c of process t ──deserialize_rc──▶ queues

    A process opens one stream to each other process when it starts. A write that fails has put some of the
    bytes into the stream, and nothing follows them. A process that goes down takes the streams to it with it;
    what it has put into its own streams can still be read. Clients write any bytes. -/

namespace AtomicDisk.Cluster
open Schemes Register Transfer

/-- What is fixed for a run; every process has the same keys. -/
structure Config where
  hmac : Hmac
  hmacSystemKey : List UInt8
  hmacClientKey : List UInt8
  nSectors : UInt64
  processesCount : UInt8
  overflowChecks : Bool

/-- The configuration of process `i`. -/
def Config.node (p : Config) (i : UInt8) : Process.Config where
  hmac := p.hmac
  hmacClientKey := p.hmacClientKey
  nSectors := p.nSectors
  selfIdent := i
  processesCount := p.processesCount
  overflowChecks := p.overflowChecks
  sectors _ := (.zeros, 0, 0)

def Config.keys (p : Config) : Keys := ⟨p.hmacSystemKey, p.hmacClientKey⟩

/-- The registers of one sector. -/
def Config.params (p : Config) (idx : SectorIdx) : Params := ⟨p.processesCount, idx, p.overflowChecks⟩

/-- A byte stream to a process. -/
structure Wire where
  /-- the process that has opened it, or `none` for a client -/
  source : Option UInt8
  target : UInt8
  /-- what has been written and not been read -/
  unread : List UInt8
  /-- the target has not gone down since -/
  live : Bool
  deriving DecidableEq

/-- The write half that `handle_writing` has for another process. -/
inductive Writer where
  | unconnected
  /-- to this wire -/
  | connected (n : ℕ)
  /-- a write has failed -/
  | failed
  deriving DecidableEq

structure World where
  nodes : UInt8 → Node.World
  wires : List Wire
  /-- of each process, for each other process -/
  writers : UInt8 → UInt8 → Writer
  /-- the wires that a process has accepted, by connection -/
  conns : UInt8 → List ℕ
  /-- the operation ids drawn so far -/
  drawn : List Uuid
  /-- how often each process has been started -/
  started : UInt8 → ℕ

inductive Event where
  /-- a step of process `i` that takes nothing from a stream and puts nothing into one -/
  | node (i : UInt8) (e : Node.Event)
  /-- `TcpStream::connect`, in `RegisterClientState::new` of process `i` -/
  | connect (i t : UInt8)
  /-- a client connects to process `t` -/
  | dial (t : UInt8)
  /-- a client writes to its stream -/
  | bytes (n : ℕ) (bs : List UInt8)
  /-- `listener.accept()` of process `t` returns wire `n` -/
  | accept (t : UInt8) (n : ℕ)
  /-- process `t` reads connection `c`, of which the first `k` unread bytes have arrived -/
  | read (t : UInt8) (c k : ℕ)
  /-- `handle_writing` of process `i` writes the next message to process `t`, or the first `k` bytes of it -/
  | write (i t : UInt8) (ok : Bool) (k : ℕ)

/-- What the other events do to a process is theirs. -/
def internal : Node.Event → Bool
  | .task (.run .accept) | .read .. | .client (.write ..) => false
  | _ => true

/-- The operation id that a step of a process draws. -/
def draws (w : Node.World) : Node.Event → Option Uuid
  | .task (.run (.work s uuid _)) =>
    match w.phase with
    | .up l => l.tasks.world.workers[s]?.bind fun k =>
      match k.queue with
      | (.client _, _) :: _ => some uuid
      | _ => none
    | _ => none
  | _ => none

/-- `RegisterClientState::new` comes before `build_sectors_manager`: a process recovers when it has connected to
    all others. -/
def connected (p : Config) (w : World) (i : UInt8) : Node.Event → Bool
  | .recover => (targets p.processesCount).all fun t => decide (t = i ∨ w.writers i t ≠ .unconnected)
  | _ => true

/-- The process has bound its listener. -/
def listening (w : Node.World) : Bool :=
  match w.phase with
  | .down => false
  | _ => true

/-- A stream to process `i` breaks. -/
def Wire.cut (i : UInt8) (r : Wire) : Wire := if r.target = i then { r with live := false } else r

/-- Process `i` goes on as `x`; if it is down, its connections are gone. -/
def World.setNode (w : World) (i : UInt8) (x : Node.World) : World :=
  match x.phase with
  | .down => { w with
      nodes := Function.update w.nodes i x
      wires := w.wires.map (Wire.cut i)
      writers := Function.update w.writers i fun _ => .unconnected
      conns := Function.update w.conns i [] }
  | _ => { w with nodes := Function.update w.nodes i x }

/-- A step of process `i`. -/
def World.node (p : Config) (w : World) (i : UInt8) (e : Node.Event) : Option World :=
  if i ∈ targets p.processesCount then
    (Node.step (p.node i) p.hmacSystemKey (w.nodes i) e).map fun (x, _) => w.setNode i x
  else none

/-- Bytes are put into a stream. -/
def Wire.append (bs : List UInt8) (r : Wire) : Wire :=
  if r.live = true then { r with unread := r.unread ++ bs } else r

def World.put (w : World) (n : ℕ) (bs : List UInt8) : World := { w with wires := w.wires.modify n (Wire.append bs) }

/-- A command is read from the first `k` bytes of a stream; if there is none, the task of the connection ends
    and nothing more is read. -/
def Wire.consume (p : Config) (k : ℕ) (r : Wire) : Wire :=
  match deserializeRc p.hmac p.keys (r.unread.take k) with
  | .ok (_, rest) => { r with unread := rest ++ r.unread.drop k }
  | .error _ => r

/-- The message that process `i` is to write next to process `t`. -/
def World.outgoing (w : World) (i t : UInt8) : Option SystemRegisterCommand :=
  match (w.nodes i).phase with
  | .up l => (l.client.links t).connection.head?
  | _ => none

/-- The bytes of a message. -/
def frame (p : Config) (m : SystemRegisterCommand) : List UInt8 := serializeRc p.hmac (.system m) p.hmacSystemKey

/-- `handle_writing` of process `i` has put the message, or a part of it, into the stream to process `t`. -/
def World.written (p : Config) (w : World) (i t : UInt8) (ok : Bool) (k : ℕ) : Option World :=
  match w.writers i t, w.outgoing i t with
  | .connected n, some m =>
    if ok = true then some (w.put n (frame p m))
    else if k < (frame p m).length then
      some { w.put n ((frame p m).take k) with
        writers := Function.update w.writers i (Function.update (w.writers i) t .failed) }
    else none
  -- a stream that has failed takes no further bytes
  | .failed, some _ => if ok = true then none else some w
  | _, _ => none

def step (p : Config) (w : World) : Event → Option (World × Unit)
  | .node i e =>
    if internal e = true ∧ connected p w i e = true ∧ ∀ u ∈ draws (w.nodes i) e, u ∉ w.drawn then
      (w.node p i e).map fun w' =>
        ({ w' with
          drawn := (draws (w.nodes i) e).toList ++ w.drawn
          started := Function.update w.started i (Node.startedBy (w.started i) e) }, ())
    else none
  | .connect i t =>
    match (w.nodes i).phase with
    | .recovering .. =>
      if i ∈ targets p.processesCount ∧ t ∈ targets p.processesCount ∧ i ≠ t ∧
          w.writers i t = .unconnected ∧ listening (w.nodes t) = true then
        some ({ w with
          wires := w.wires ++ [⟨some i, t, [], true⟩]
          writers := Function.update w.writers i
            (Function.update (w.writers i) t (.connected w.wires.length)) }, ())
      else none
    | _ => none
  | .dial t =>
    if listening (w.nodes t) = true then some ({ w with wires := w.wires ++ [⟨none, t, [], true⟩] }, ())
    else none
  | .bytes n bs =>
    match w.wires[n]? with
    | some ⟨none, _, _, _⟩ => some (w.put n bs, ())
    | _ => none
  | .accept t n =>
    match w.wires[n]? with
    | some r =>
      if r.target = t ∧ r.live = true ∧ n ∉ w.conns t then
        (w.node p t (.task (.run .accept))).map fun w' =>
          ({ w' with conns := Function.update w'.conns t (w'.conns t ++ [n]) }, ())
      else none
    | none => none
  | .read t c k =>
    match (w.conns t)[c]? with
    | some n =>
      match w.wires[n]? with
      | some r => (w.node p t (.read c (r.unread.take k))).map fun w' =>
          ({ w' with wires := w'.wires.modify n (Wire.consume p k) }, ())
      | none => none
    | none => none
  | .write i t ok k =>
    (w.written p i t ok k).bind fun w' => (w'.node p i (.client (.write t ok))).map fun w'' => (w'', ())

/-- No process is started, and all directories are empty. -/
def init : World where
  nodes _ := Node.init
  wires := []
  writers _ _ := .unconnected
  conns _ := []
  drawn := []
  started _ := 0

/-! ### Conditions on runs -/

/-- A system command with a valid tag. -/
def authentic : Except Fault ((RegisterCommand × Bool) × List UInt8) → Bool
  | .ok ((.system _, true), _) => true
  | _ => false

/-- Clients do not have the system key: no stream of a client holds a system command with a valid tag. -/
def Unforged (p : Config) (w : World) : Event → Prop
  | .read t c k => ∀ n ∈ (w.conns t)[c]?, ∀ r ∈ w.wires[n]?, r.source = none →
      authentic (deserializeRc p.hmac p.keys (r.unread.take k)) = false
  | _ => True

/-- In every handler that is run, `C` holds at the quorum it completes. -/
def Met (C : EntryCondition) (w : World) : Event → Prop
  | .node i e => Node.MetBy C (w.nodes i) e
  | _ => True

/-- What the steps of a run meet. -/
def Admitted (p : Config) (C : EntryCondition) (w : World) (e : Event) : Prop := Unforged p w e ∧ Met C w e

instance (p : Config) (w : World) (e : Event) : Decidable (Unforged p w e) :=
  match e with
  | .read .. => by dsimp only [Unforged]; infer_instance
  | .node .. | .connect .. | .dial .. | .bytes .. | .accept .. | .write .. => isTrue trivial

instance (C : EntryCondition) [∀ r m e, Decidable (C r m e)] (w : World) (e : Event) : Decidable (Met C w e) :=
  match e with
  | .node i e => inferInstanceAs (Decidable (Node.MetBy C (w.nodes i) e))
  | .read .. | .connect .. | .dial .. | .bytes .. | .accept .. | .write .. => isTrue trivial

instance (p : Config) (C : EntryCondition) [∀ r m e, Decidable (C r m e)] (w : World) (e : Event) :
    Decidable (Admitted p C w e) :=
  inferInstanceAs (Decidable (_ ∧ _))

abbrev Trace := List (Entry World Event Unit)

/-- Runs of all processes in which `C` holds at every quorum, with their traces. -/
abbrev ClusterRun (p : Config) (C : EntryCondition) (tr : Trace) (w : World) : Prop :=
  Run (step p) (Admitted p C) init tr w

end AtomicDisk.Cluster
