import AtomicDisk.Domain
import AtomicDisk.Schemes.Stream

/-! Messages on the wire (`transfer_operations.rs`). A message is

        magic (4) │ padding, rank, type (4) │ fields │ tag (32)

    where the fields of a client command are the request identifier (8), the sector index (8) and for a
    write the data (4096), and those of a system command the operation identifier (16), the sector index
    (8) and for Value and WriteProc the timestamp (8), the write rank (8) and the data (4096). The tag is
    the HMAC of all before it. -/

namespace AtomicDisk.Transfer
open Schemes

/-- HMAC-SHA256: some function of key and message with tags of 32 bytes. -/
structure Hmac where
  tag (key message : List UInt8) : List UInt8
  size : ∀ key message, (tag key message).length = 32

/-- A checksum, for concrete runs. -/
def checksum (bytes : List UInt8) : UInt8 := bytes.foldl (fun a b => 31 * a + b) 1

/-- Tags that depend on the key and on every byte, for concrete runs. -/
def sumHmac : Hmac :=
  ⟨fun key message => List.replicate 32 (checksum key + checksum message), fun _ _ => List.length_replicate⟩

/-- A mac under construction: the key, and what it has been updated with. -/
structure Mac where
  key : List UInt8
  message : List UInt8

/-- `HmacSha256::new_from_slice`, which takes keys of any length. -/
def Mac.newFromSlice (key : List UInt8) : Mac := ⟨key, []⟩

def Mac.update (mac : Mac) (bytes : List UInt8) : Mac := ⟨mac.key, mac.message ++ bytes⟩

def Mac.finalize (h : Hmac) (mac : Mac) : List UInt8 := h.tag mac.key mac.message

/-- `verify_slice(tag).is_ok()`. -/
def Mac.verifySlice (h : Hmac) (mac : Mac) (tag : List UInt8) : Bool := tag == mac.finalize h

inductive MessageType where
  | read
  | write
  | readProc
  | value
  | writeProc
  | ack
  deriving DecidableEq

/-- `msg_type as u8`. -/
def MessageType.toU8 : MessageType → UInt8
  | .read => 0x01
  | .write => 0x02
  | .readProc => 0x03
  | .value => 0x04
  | .writeProc => 0x05
  | .ack => 0x06

/-- The variants of `SerializationError` that occur. -/
inductive SerializationError where
  | invalidMessageType
  | invalidData
  deriving DecidableEq

/-- `MessageType::try_from`. -/
def MessageType.tryFrom (val : UInt8) : Except SerializationError MessageType :=
  if val = 0x01 then .ok .read
  else if val = 0x02 then .ok .write
  else if val = 0x03 then .ok .readProc
  else if val = 0x04 then .ok .value
  else if val = 0x05 then .ok .writeProc
  else if val = 0x06 then .ok .ack
  else .error .invalidMessageType

/-- How reading a command fails. -/
inductive Fault where
  /-- the stream ends within a `read_exact` -/
  | unexpectedEof
  /-- an error of our own, turned into an `io::Error` by `?` -/
  | serialization (e : SerializationError)
  /-- an `unwrap` of an error -/
  | panic
  deriving DecidableEq

/-! ### Deserialization -/

abbrev CommandReader := Reader UInt8 Fault

def readExact (n : ℕ) : CommandReader (Block UInt8 n) := Reader.readExact .unexpectedEof n

/-- `u64::from_be_bytes`. -/
def fromBeBytes (bytes : Block UInt8 8) : UInt64 := UInt64.ofNat (ofBytes bytes.items)

/-- `Uuid::from_slice`, which does not fail on 16 bytes. -/
def uuidFromSlice (bytes : Block UInt8 16) : Uuid := ⟨bytes.items, bytes.size⟩

def constructClientCommand (h : Hmac) (mac : Mac) (msgType : MessageType) :
    CommandReader (RegisterCommand × Bool) := do
  let buff ← readExact 8
  let mac := mac.update buff.items
  let rid := fromBeBytes buff
  let buff ← readExact 8
  let mac := mac.update buff.items
  let sidx := fromBeBytes buff
  let header : ClientCommandHeader := ⟨rid, sidx⟩
  let (content, mac) ← match msgType with
    | .read => pure (ClientRegisterCommandContent.read, mac)
    | .write => do
      let buff ← readExact 4096
      pure (.write ⟨buff.items⟩, mac.update buff.items)
    | _ => throw (.serialization .invalidData)
  let hmacTag ← readExact 32
  pure (.client ⟨header, content⟩, mac.verifySlice h hmacTag.items)

def constructSystemCommand (h : Hmac) (mac : Mac) (processRank : UInt8) (msgType : MessageType) :
    CommandReader (RegisterCommand × Bool) := do
  let buff ← readExact 16
  let mac := mac.update buff.items
  let uid := uuidFromSlice buff
  let buff ← readExact 8
  let mac := mac.update buff.items
  let sidx := fromBeBytes buff
  let hmacTag ← readExact 32
  let header : SystemCommandHeader := ⟨processRank, uid, sidx⟩
  let content ← match msgType with
    | .readProc => pure SystemRegisterCommandContent.readProc
    | .ack => pure .ack
    | _ => throw (.serialization .invalidData)
  pure (.system ⟨header, content⟩, mac.verifySlice h hmacTag.items)

def constructAdvancedSystemCommand (h : Hmac) (mac : Mac) (processRank : UInt8)
    (msgType : MessageType) : CommandReader (RegisterCommand × Bool) := do
  let buff ← readExact 16
  let mac := mac.update buff.items
  let uid := uuidFromSlice buff
  let buff ← readExact 8
  let mac := mac.update buff.items
  let sidx := fromBeBytes buff
  let buff ← readExact 8
  let mac := mac.update buff.items
  let ts := fromBeBytes buff
  let buff ← readExact 8
  let mac := mac.update buff.items
  let valueWr := buff.get 7
  let buff ← readExact 4096
  let mac := mac.update buff.items
  let svec : SectorVec := ⟨buff.items⟩
  let hmacTag ← readExact 32
  let header : SystemCommandHeader := ⟨processRank, uid, sidx⟩
  let content ← match msgType with
    | .value => pure (SystemRegisterCommandContent.value ts valueWr svec)
    | .writeProc => pure (.writeProc ts valueWr svec)
    | _ => throw (.serialization .invalidData)
  pure (.system ⟨header, content⟩, mac.verifySlice h hmacTag.items)

/-- The keys of a process. -/
structure Keys where
  hmacSystemKey : List UInt8
  hmacClientKey : List UInt8

/-- The last part of `deserialize_rc`: what follows the message type. -/
def constructCommand (h : Hmac) (keys : Keys) (buff : Block UInt8 4) (msgType : MessageType) :
    CommandReader (RegisterCommand × Bool) :=
  match msgType with
  | .read | .write =>
    let mac := ((Mac.newFromSlice keys.hmacClientKey).update magicNumber).update buff.items
    constructClientCommand h mac msgType
  | .readProc | .ack =>
    let mac := ((Mac.newFromSlice keys.hmacSystemKey).update magicNumber).update buff.items
    constructSystemCommand h mac (buff.get 2) msgType
  | .value | .writeProc =>
    let mac := ((Mac.newFromSlice keys.hmacSystemKey).update magicNumber).update buff.items
    constructAdvancedSystemCommand h mac (buff.get 2) msgType

/-- The loop of `deserialize_rc` that looks for the magic number. -/
def slideToMagicNumber (window : Block UInt8 4) : CommandReader Unit := fun stream =>
  match slide magicNumber window.items stream with
  | some stream => .ok ((), stream)
  | none => .error .unexpectedEof

/-- `deserialize_rc`. -/
def deserializeRc (h : Hmac) (keys : Keys) : CommandReader (RegisterCommand × Bool) := do
  let validMagicNumber ← readExact 4
  slideToMagicNumber validMagicNumber
  let buff ← readExact 4
  match MessageType.tryFrom (buff.get 3) with
  | .ok msgType => constructCommand h keys buff msgType
  | .error _ => throw .panic

/-! ### Serialization -/

/-- `to_be_bytes` of a `u64`. -/
def toBeBytes (x : UInt64) : List UInt8 := toBytes 8 x.toNat

def serializeClientRc (header : ClientCommandHeader) (content : ClientRegisterCommandContent) :
    List UInt8 :=
  let buff := magicNumber
  let msgType := match content with
    | .read => MessageType.read
    | .write _ => .write
  let buff := buff ++ [0, 0, 0, msgType.toU8]
  let buff := buff ++ toBeBytes header.requestIdentifier
  let buff := buff ++ toBeBytes header.sectorIdx
  match content with
  | .read => buff
  | .write data => buff ++ data.data

def serializeSystemRc (header : SystemCommandHeader) (content : SystemRegisterCommandContent) :
    List UInt8 :=
  let buff := magicNumber
  let msgType := match content with
    | .readProc => MessageType.readProc
    | .ack => .ack
    | .value .. => .value
    | .writeProc .. => .writeProc
  let buff := buff ++ [0, 0, header.processIdentifier, msgType.toU8]
  let buff := buff ++ header.msgIdent.bytes
  let buff := buff ++ toBeBytes header.sectorIdx
  match content with
  | .readProc | .ack => buff
  | .value timestamp writeRank sectorData =>
    let buff := buff ++ toBeBytes timestamp
    let buff := buff ++ [0, 0, 0, 0, 0, 0, 0, writeRank]
    buff ++ sectorData.data
  | .writeProc timestamp writeRank dataToWrite =>
    let buff := buff ++ toBeBytes timestamp
    let buff := buff ++ [0, 0, 0, 0, 0, 0, 0, writeRank]
    buff ++ dataToWrite.data

/-- `serialize_rc`: what is written. -/
def serializeRc (h : Hmac) (cmd : RegisterCommand) (hmacKey : List UInt8) : List UInt8 :=
  let data := match cmd with
    | .client ⟨header, content⟩ => serializeClientRc header content
    | .system ⟨header, content⟩ => serializeSystemRc header content
  let mac := (Mac.newFromSlice hmacKey).update data
  data ++ mac.finalize h

end AtomicDisk.Transfer
