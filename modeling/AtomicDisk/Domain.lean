import Mathlib.Data.Nat.Notation

/-! Domain types of the distributed register (`domain.rs`): sector data, operation identifiers, the
    commands clients and processes send, and what a completed operation returns. Machine integers
    keep their width (`u8` is `UInt8`, `u64` is `UInt64`); a `Vec<u8>` is a list of bytes. -/

namespace AtomicDisk

def magicNumber : List UInt8 := [0x61, 0x74, 0x64, 0x64]

/-- `SectorVec(Vec<u8>)`: the type does not bound the length, 4096 is only the convention. -/
structure SectorVec where
  data : List UInt8
  deriving DecidableEq

/-- `SectorVec(vec![0u8; 4096])`. -/
def SectorVec.zeros : SectorVec := ⟨List.replicate 4096 0⟩

/-- A sector filled with one byte, for concrete runs. -/
def filled (n : UInt8) : SectorVec := ⟨List.replicate 4096 n⟩

@[simp] theorem filled_length (n : UInt8) : (filled n).data.length = 4096 := List.length_replicate

abbrev SectorIdx := UInt64

/-- `uuid::Uuid`: sixteen bytes. -/
structure Uuid where
  bytes : List UInt8
  size : bytes.length = 16
  deriving DecidableEq

/-- The id all of whose bytes are `n`, for concrete runs. -/
def uuid (n : UInt8) : Uuid := ⟨List.replicate 16 n, by simp⟩

inductive StatusCode where
  | ok
  | authFailure
  | invalidSectorIndex
  deriving DecidableEq

/-- `status_code as u8`. -/
def StatusCode.toU8 : StatusCode → UInt8
  | .ok => 0
  | .authFailure => 1
  | .invalidSectorIndex => 2

structure ClientCommandHeader where
  requestIdentifier : UInt64
  sectorIdx : SectorIdx
  deriving DecidableEq

inductive ClientRegisterCommandContent where
  | read
  | write (data : SectorVec)
  deriving DecidableEq

structure ClientRegisterCommand where
  header : ClientCommandHeader
  content : ClientRegisterCommandContent
  deriving DecidableEq

structure SystemCommandHeader where
  processIdentifier : UInt8
  msgIdent : Uuid
  sectorIdx : SectorIdx
  deriving DecidableEq

inductive SystemRegisterCommandContent where
  | readProc
  | value (timestamp : UInt64) (writeRank : UInt8) (sectorData : SectorVec)
  | writeProc (timestamp : UInt64) (writeRank : UInt8) (dataToWrite : SectorVec)
  | ack
  deriving DecidableEq

structure SystemRegisterCommand where
  header : SystemCommandHeader
  content : SystemRegisterCommandContent
  deriving DecidableEq

inductive RegisterCommand where
  | client (cmd : ClientRegisterCommand)
  | system (cmd : SystemRegisterCommand)
  deriving DecidableEq

/-- `OperationReturn`, with the `ReadReturn` of a read. -/
inductive OperationReturn where
  | read (readData : SectorVec)
  | write
  deriving DecidableEq

structure OperationSuccess where
  requestIdentifier : UInt64
  opReturn : OperationReturn
  deriving DecidableEq

/-- `register_client_public::Send`: a command and the process it is for. -/
structure SendMsg where
  cmd : SystemRegisterCommand
  target : UInt8
  deriving DecidableEq

end AtomicDisk
