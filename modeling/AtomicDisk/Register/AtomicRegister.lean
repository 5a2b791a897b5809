import AtomicDisk.Domain
import AtomicDisk.Schemes.Collections
import Mathlib.Algebra.Group.Nat.Defs
import Mathlib.Data.Prod.Lex

/-! The register of one sector at one process (`atomic_register.rs`, and `build_atomic_register` of
    `lib.rs`): the (N,N)-AtomicRegister algorithm as two handlers on a state. A handler is run to its
    end; what it does outside the state (store a sector, send, broadcast, invoke the client's
    callback) is the list of its effects in program order, one for each `await`. `none` is a panic.

        client_command ──▶ READ_PROC to all ──▶ VALUE from a majority
                                                  │ highest of the readlist
                                                  ▼
                           ACK from a majority ◀── WRITE_PROC to all
                                  │
                                  ▼ callback -/

namespace AtomicDisk.Register
open Schemes

/-- An entry `(timestamp, write_rank, value)` of the readlist. -/
abbrev ReadEntry := UInt64 × UInt8 × SectorVec

/-- `AtomicRegisterState`, with callbacks of type `κ`; what it does through `register_client` and
    `sectors_manager` appears in the effects of its handlers. -/
structure AtomicRegisterState (κ : Type) where
  selfIdent : UInt8
  sectorIdx : SectorIdx
  processesCount : UInt8
  ts : UInt64
  wr : UInt8
  val : SectorVec
  readlist : HashMap UInt8 ReadEntry
  acklist : Finset UInt8
  reading : Bool
  writing : Bool
  writeval : SectorVec
  readval : SectorVec
  writePhase : Bool
  callback : Option κ
  rid : Option UInt64
  opId : Option Uuid

/-- What a handler does outside the register's state, one for each `await`. -/
inductive Effect (κ : Type) where
  /-- `sectors_manager.write(sector_idx, &(val, ts, wr))` -/
  | write (sectorIdx : SectorIdx) (sector : SectorVec × UInt64 × UInt8)
  | send (msg : SendMsg)
  | broadcast (cmd : SystemRegisterCommand)
  | callback (f : κ) (opSuccess : OperationSuccess)

variable {κ : Type}

/-- `AtomicRegisterState::new`. -/
def AtomicRegisterState.new (selfIdent : UInt8) (sectorIdx : SectorIdx) (processesCount : UInt8)
    (ts : UInt64) (wr : UInt8) (val : SectorVec) : AtomicRegisterState κ where
  selfIdent
  sectorIdx
  processesCount
  ts
  wr
  val
  readlist := ∅
  acklist := ∅
  reading := false
  writing := false
  writeval := .zeros
  readval := .zeros
  writePhase := false
  callback := none
  rid := none
  opId := none

/-- `build_atomic_register`: what the storage holds for the sector, and nothing in progress. -/
def buildAtomicRegister (selfIdent : UInt8) (sectorIdx : SectorIdx) (processesCount : UInt8)
    (sector : SectorVec × UInt64 × UInt8) : AtomicRegisterState κ :=
  .new selfIdent sectorIdx processesCount sector.2.1 sector.2.2 sector.1

/-- `u64` addition: with `overflow-checks` (the dev profile) an overflow panics, without it wraps. -/
def addU64 (overflowChecks : Bool) (a b : UInt64) : Option UInt64 :=
  if overflowChecks = true ∧ 2 ^ 64 ≤ a.toNat + b.toNat then none else some (a + b)

/-- `client_command`, with the operation id that `Uuid::new_v4` draws. -/
def clientCommand (r : AtomicRegisterState κ) (cmd : ClientRegisterCommand) (successCallback : κ)
    (uuid : Uuid) : AtomicRegisterState κ × List (Effect κ) :=
  let r := { r with
    opId := some uuid, callback := some successCallback, rid := some cmd.header.requestIdentifier }
  let r := match cmd.content with
    | .read => { r with readlist := ∅, acklist := ∅, reading := true }
    | .write data => { r with writeval := data, acklist := ∅, readlist := ∅, writing := true }
  (r, [.broadcast ⟨⟨r.selfIdent, uuid, cmd.header.sectorIdx⟩, .readProc⟩])

/-- READ_PROC: answer with the register's timestamp, rank and value. -/
def onReadProc (r : AtomicRegisterState κ) (h : SystemCommandHeader) :
    Option (AtomicRegisterState κ × List (Effect κ)) :=
  some (r, [.send ⟨⟨⟨r.selfIdent, h.msgIdent, h.sectorIdx⟩, .value r.ts r.wr r.val⟩,
    h.processIdentifier⟩])

/-- The comparator of `max_by`: `a.1.1.cmp(&b.1.1)`, where `a.1` is the readlist entry of `a`, so
    `a.1.1` is its write rank. -/
def cmpEntries (a b : Σ _ : UInt8, ReadEntry) : Ordering := compare a.2.2.1 b.2.2.1

/-- The end of the VALUE handler, once more than half of the processes have answered: take the
    highest entry and write it back, or write the client's value under a new timestamp. -/
def startWritePhase (overflowChecks : Bool) (order : IterOrder UInt8 ReadEntry)
    (r : AtomicRegisterState κ) (sidx : SectorIdx) (opId : Uuid) :
    Option (AtomicRegisterState κ × List (Effect κ)) := do
  let r := { r with readlist := r.readlist.insert r.selfIdent (r.ts, r.wr, r.val) }
  let ⟨_, maxts, rr, readval⟩ ← maxBy cmpEntries (order.iter r.readlist.entries)
  let r := { r with readval, readlist := ∅, acklist := ∅, writePhase := true }
  if r.reading then
    some (r, [.broadcast ⟨⟨r.selfIdent, opId, sidx⟩, .writeProc maxts rr readval⟩])
  else
    let ts ← addU64 overflowChecks maxts 1
    let r := { r with ts, wr := r.selfIdent, val := r.writeval }
    some (r, [.write r.sectorIdx (r.val, r.ts, r.wr),
      .broadcast ⟨⟨r.selfIdent, opId, sidx⟩, .writeProc r.ts r.selfIdent r.writeval⟩])

/-- VALUE: collect the answer; `op_id.unwrap()` comes first in the guard. -/
def onValue (overflowChecks : Bool) (order : IterOrder UInt8 ReadEntry) (r : AtomicRegisterState κ)
    (h : SystemCommandHeader) (entry : ReadEntry) :
    Option (AtomicRegisterState κ × List (Effect κ)) := do
  let opId ← r.opId
  if h.msgIdent = opId ∧ r.writePhase = false then
    let r := { r with readlist := r.readlist.insert h.processIdentifier entry }
    if r.readlist.len > r.processesCount.toNat / 2 ∧ (r.reading || r.writing) = true then
      startWritePhase overflowChecks order r h.sectorIdx opId
    else some (r, [])
  else some (r, [])

/-- WRITE_PROC: adopt a larger `(timestamp, write_rank)`, acknowledge in any case. -/
def onWriteProc (r : AtomicRegisterState κ) (h : SystemCommandHeader) (timestamp : UInt64)
    (writeRank : UInt8) (dataToWrite : SectorVec) :
    Option (AtomicRegisterState κ × List (Effect κ)) :=
  let ack := Effect.send ⟨⟨⟨r.selfIdent, h.msgIdent, h.sectorIdx⟩, .ack⟩, h.processIdentifier⟩
  if timestamp > r.ts ∨ timestamp = r.ts ∧ writeRank > r.wr then
    let r := { r with ts := timestamp, wr := writeRank, val := dataToWrite }
    some (r, [.write r.sectorIdx (r.val, r.ts, r.wr), ack])
  else some (r, [ack])

/-- `if let Some(callback) = self.callback.take() { callback(OperationSuccess { .. }).await }`. -/
def respond (r : AtomicRegisterState κ) (opReturn : OperationReturn) :
    Option (AtomicRegisterState κ × List (Effect κ)) :=
  match r.callback with
  | none => some (r, [])
  | some f => do
    let rid ← r.rid
    some ({ r with callback := none }, [.callback f ⟨rid, opReturn⟩])

/-- The end of the ACK handler, once more than half of the processes have acknowledged. -/
def completeOperation (r : AtomicRegisterState κ) :
    Option (AtomicRegisterState κ × List (Effect κ)) :=
  let r := { r with acklist := ∅, writePhase := false }
  if r.reading then respond { r with reading := false } (.read r.readval)
  else respond { r with writing := false } .write

/-- ACK: collect the acknowledgement; `op_id.unwrap()` comes first in the guard. -/
def onAck (r : AtomicRegisterState κ) (h : SystemCommandHeader) :
    Option (AtomicRegisterState κ × List (Effect κ)) := do
  let opId ← r.opId
  if h.msgIdent = opId ∧ r.writePhase = true then
    let r := { r with acklist := insert h.processIdentifier r.acklist }
    if r.acklist.card > r.processesCount.toNat / 2 ∧ (r.reading || r.writing) = true then
      completeOperation r
    else some (r, [])
  else some (r, [])

/-- `system_command`. -/
def systemCommand (overflowChecks : Bool) (order : IterOrder UInt8 ReadEntry)
    (r : AtomicRegisterState κ) (cmd : SystemRegisterCommand) :
    Option (AtomicRegisterState κ × List (Effect κ)) :=
  match cmd.content with
  | .readProc => onReadProc r cmd.header
  | .value timestamp writeRank sectorData =>
    onValue overflowChecks order r cmd.header (timestamp, writeRank, sectorData)
  | .writeProc timestamp writeRank dataToWrite =>
    onWriteProc r cmd.header timestamp writeRank dataToWrite
  | .ack => onAck r cmd.header

end AtomicDisk.Register
