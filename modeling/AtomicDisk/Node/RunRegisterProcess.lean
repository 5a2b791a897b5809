import AtomicDisk.Client.RegisterClient
import AtomicDisk.Process.Tasks
import AtomicDisk.Storage.Crashes

/-! A process as a whole (`run_register_process` of `lib.rs`): the tasks of the process, the register client,
    the sectors manager and its directory. A worker carries out the effects of a handler one after the
    other, and waits for each of them before it goes on; what it calls is made of steps itself, and the
    steps of all workers interleave.

        bytes ──deserialize_rc──▶ connection ──▶ queue ──▶ handler ──▶ effects
                                                   ▲                     ├─ write ──▶ file system calls
                          self channel ────────────┘                     ├─ send  ──▶ channels of the client
                               ▲                                         └─ callback ──▶ response
                               └──────────────── push ────────────────────┘

        up ──crash──▶ down ──restart──▶ recovering ──recover──▶ up, with registers built from the directory

    A crash leaves the directory and nothing else. -/

namespace AtomicDisk.Node
open Schemes Register Transfer
open Process (Config Tasks TaskEvent Ticket taskStep initTasks)
open Storage (FileName Sector DataAccess Call SectorsManagerState recoverEntry sectoridxTmpFilePath)

/-- A process that is up. -/
structure Live where
  /-- what the registers have been built from -/
  sectors : ℕ → Sector
  tasks : Tasks
  client : Client.World SystemRegisterCommand
  dataAccess : DataAccess
  /-- what is left of the effects of the handler that a worker runs; it is busy with the first -/
  todo : ℕ → List (Effect Ticket)
  /-- the call of `write` that a worker waits for -/
  writing : ℕ → Option Call
  /-- the call of `send` or `broadcast` that a worker waits for: which of the client's calls it is -/
  sending : ℕ → Option ℕ

inductive Phase where
  | up (l : Live)
  | recovering (dataAccess : DataAccess) (remaining : List FileName)
  | down

structure World where
  dir : Directory FileName
  phase : Phase

inductive Event where
  /-- a step of the tasks that takes nothing from a connection or from the self channel -/
  | task (e : TaskEvent)
  /-- `deserialize_register_command` returns, or fails, on the bytes that have arrived -/
  | read (c : ℕ) (stream : List UInt8)
  /-- `handle_self_messages` -/
  | selfMessage
  /-- worker `s` begins with the next effect, or is done with it -/
  | perform (s : ℕ)
  /-- the next step of the `write` that worker `s` waits for -/
  | write (s : ℕ)
  /-- the first `k` bytes of the data are in the temporary file -/
  | fillPartly (s k : ℕ)
  /-- the next send of the `send` or `broadcast` that worker `s` waits for -/
  | push (s : ℕ)
  /-- a step of a task of the register client -/
  | client (e : Client.Event SystemRegisterCommand)
  | crash
  /-- the process is started, and the directory is listed -/
  | restart (listing : List FileName)
  /-- the next name of the listing, or the end of it -/
  | recover

/-! ### Starting -/

/-- `build_atomic_register` for every sector, in workers that panic if `read_data` does. -/
def boot (p : Config) (m : SectorsManagerState) : Live :=
  let sectors := fun s => ((m.readData (.ofNat s)).getD .zeros, m.readMetadata (.ofNat s))
  { sectors
    tasks := { initTasks { p with sectors } with
      dead := (List.range p.nSectors.toNat).filter fun s => (m.readData (.ofNat s)).isNone }
    client := Client.init
    dataAccess := m.dataAccess
    todo := fun _ => []
    writing := fun _ => none
    sending := fun _ => none }

/-- What the tasks run with. -/
def Live.config (p : Config) (l : Live) : Config := { p with sectors := l.sectors }

/-! ### Workers and their effects -/

/-- Worker `s` panics while it carries out an effect. -/
def Live.panics (p : Config) (l : Live) (s : ℕ) : Option Live :=
  l.tasks.world.workers[s]?.map fun k => { l with
    tasks := l.tasks.dies (l.config p) s k
    todo := Function.update l.todo s []
    writing := Function.update l.writing s none
    sending := Function.update l.sending s none }

def clientOf (p : Config) : Client.RegisterClientState := .new p.selfIdent p.processesCount

/-- Worker `s` calls `send` or `broadcast`, or is done with it and has `todo` left. -/
def Live.calls (p : Config) (l : Live) (s : ℕ) (e : Client.Event SystemRegisterCommand)
    (todo : List (Effect Ticket)) : Option Live :=
  match l.sending s with
  | none =>
    match Client.step (clientOf p) l.client e with
    | some (client, _) =>
      some { l with client, sending := Function.update l.sending s (some l.client.calls.length) }
    | none => l.panics p s
  | some i =>
    match l.client.calls[i]? with
    | some [] => some { l with
        sending := Function.update l.sending s none
        todo := Function.update l.todo s todo }
    | _ => none

def Live.perform (p : Config) (l : Live) (s : ℕ) : Option Live :=
  if s ∈ l.tasks.dead then none
  else
    match l.todo s with
    | [] => none
    | .write _ sector :: todo =>
      match l.writing s with
      | none => some { l with writing := Function.update l.writing s (some ⟨sector, .begun⟩) }
      | some call =>
        if call.stage = .removed then
          some { l with
            writing := Function.update l.writing s none
            todo := Function.update l.todo s todo }
        else none
    | .send msg :: todo => l.calls p s (.send msg.cmd msg.target) todo
    | .broadcast cmd :: todo => l.calls p s (.broadcast cmd) todo
    -- the callback itself is run by the steps of the tasks
    | .callback _ _ :: todo => some { l with todo := Function.update l.todo s todo }

/-- The next send is to the self channel. -/
def toSelf : Option (List (Client.Push SystemRegisterCommand)) → Bool
  | some (push :: _) => decide (push.channel = .self)
  | _ => false

def Live.push (p : Config) (l : Live) (s : ℕ) : Option Live :=
  if s ∈ l.tasks.dead then none
  else
    (l.sending s).bind fun i =>
      -- without `handle_self_messages` the self channel is closed, and `expect` panics
      if toSelf l.client.calls[i]? = true ∧ l.tasks.selfHandler = false then l.panics p s
      else (Client.step (clientOf p) l.client (.push i)).map fun (client, _) => { l with client }

/-- The next step of the `write` of worker `s`. -/
def Live.write (p : Config) (dir : Directory FileName) (l : Live) (s : ℕ) :
    Option (Directory FileName × Live) :=
  if s ∈ l.tasks.dead then none
  else
    match l.todo s, l.writing s with
    | .write idx _ :: _, some call =>
      match call.advance idx ⟨dir, l.dataAccess⟩ with
      | some (m, call) => some (m.dir, { l with
          dataAccess := m.dataAccess
          writing := Function.update l.writing s (some call) })
      | none => (l.panics p s).map fun l => (dir, l)
    | _, _ => none

def Live.fillPartly (dir : Directory FileName) (l : Live) (s k : ℕ) : Option (Directory FileName) :=
  if s ∈ l.tasks.dead then none
  else
    match l.todo s, l.writing s with
    | .write idx _ :: _, some ⟨(data, ts, wr), .created⟩ =>
      some (dir.fill (sectoridxTmpFilePath idx ts wr) (data.data.take k))
    | _, _ => none

/-! ### The machine -/

/-- The steps of the tasks that neither read a connection nor receive from the self channel. -/
def unfed : TaskEvent → Bool
  | .run (.receive ..) | .run (.hangUp _) | .run (.selfMessage _) => false
  | _ => true

/-- The worker that begins with a handler. -/
def begins : TaskEvent → Option ℕ
  | .run (.work s _ _) | .panics s _ => some s
  | _ => none

/-- A step of the tasks; the effects of a handler are to be carried out by its worker. -/
def Live.task (p : Config) (l : Live) (e : TaskEvent) : Option Live :=
  match begins e with
  | some s =>
    if (l.todo s).isEmpty = true then
      (taskStep (l.config p) l.tasks e).map fun (tasks, effs) =>
        { l with tasks, todo := Function.update l.todo s effs }
    else none
  | none => (taskStep (l.config p) l.tasks e).map fun (tasks, _) => { l with tasks }

/-- The steps of the tasks of the register client. -/
def ofClient : Client.Event SystemRegisterCommand → Bool
  | .write .. | .tick _ | .take _ => true
  | _ => false

/-- The steps of a process that is up, other than those that go to the directory. -/
def Live.step (p : Config) (hmacSystemKey : List UInt8) (l : Live) : Event → Option Live
  | .task e => if unfed e = true then l.task p e else none
  | .read c stream =>
    match deserializeRc p.hmac ⟨hmacSystemKey, p.hmacClientKey⟩ stream with
    | .ok ((cmd, hmacOk), _) => l.task p (.run (.receive c cmd hmacOk))
    | .error _ => l.task p (.run (.hangUp c))
  | .selfMessage =>
    match l.client.selfQueue with
    | [] => none
    | cmd :: queue => (l.task p (.run (.selfMessage cmd))).map fun l =>
        { l with client := { l.client with selfQueue := queue } }
  | .perform s => l.perform p s
  | .push s => l.push p s
  | .client e =>
    if ofClient e = true then
      (Client.step (clientOf p) l.client e).map fun (client, _) => { l with client }
    else none
  | _ => none

def step (p : Config) (hmacSystemKey : List UInt8) (w : World) (e : Event) : Option (World × Unit) :=
  match w.phase, e with
  | .up l, .write s => (l.write p w.dir s).map fun (dir, l) => (⟨dir, .up l⟩, ())
  | .up l, .fillPartly s k => (l.fillPartly w.dir s k).map fun dir => (⟨dir, .up l⟩, ())
  | .up _, .crash => some (⟨w.dir, .down⟩, ())
  | .up l, e => (l.step p hmacSystemKey e).map fun l => (⟨w.dir, .up l⟩, ())
  | .recovering .., .crash => some (⟨w.dir, .down⟩, ())
  | .recovering dataAccess [], .recover => some (⟨w.dir, .up (boot p ⟨w.dir, dataAccess⟩)⟩, ())
  | .recovering dataAccess (fileName :: remaining), .recover =>
    match recoverEntry w.dir dataAccess fileName with
    | some (dir, dataAccess) => some (⟨dir, .recovering dataAccess remaining⟩, ())
    -- a panic ends the process
    | none => some (⟨w.dir, .down⟩, ())
  | .down, .restart listing =>
    if listing.Perm w.dir.keys then some (⟨w.dir, .recovering ∅ listing⟩, ()) else none
  | _, _ => none

/-- The process before it is started for the first time, with an empty storage directory. -/
def init : World := ⟨∅, .down⟩

abbrev NodeTrace := List (Entry World Event Unit)

/-- Runs of a process, over all its crashes. -/
abbrev NodeRun (p : Config) (hmacSystemKey : List UInt8) (tr : NodeTrace) (w : World) : Prop :=
  Run (step p hmacSystemKey) (fun _ _ => True) init tr w

end AtomicDisk.Node
