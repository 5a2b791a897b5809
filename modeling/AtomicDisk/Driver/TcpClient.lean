import AtomicDisk.Schemes.Buffer
import AtomicDisk.Transfer.TransferOperations

/-! The driver's side of the wire (`atdd_tcp_client.c`, `tcp.c`, `cmd.h`): how it lays out a request in its
    send buffer, and how it takes responses off the socket into its parse buffer. The buffers are memory
    that is allocated once and reused, so a function finds in them what the last one has left. A `none` is
    an access outside a buffer or a `BUG_ON`; an error code is an `Except.error`.

        send_buf     │ magic (4) │ NUL, ?, ?, type (4) │ ident (8) │ sector (8) │ data (4096) │ tag (32) │
        parse_buf    │ magic (4) │ 0, 0, status, type (4) │ ident (8) │ data (4096) │ tag (32) │

    The data is there for a write request and for the response to a successful read. -/

namespace AtomicDisk.Driver
open Schemes Transfer

/-! ### Sizes and codes -/

def sectorSize : ℕ := 4096

def hmacTagSize : ℕ := 32

def atddRequestHeaderSize : ℕ := 24

def atddResponseHeaderSize : ℕ := 16

def maxCmdSize : ℕ := atddRequestHeaderSize + hmacTagSize + sectorSize

def minResponseSize : ℕ := atddResponseHeaderSize + hmacTagSize

def maxResponseSize : ℕ := minResponseSize + sectorSize

def sendBufPosStart : ℕ := 7

/-- `enum cmd_type`. -/
def readCmd : UInt8 := 1

def writeCmd : UInt8 := 2

/-- The error codes that occur, without their sign. -/
inductive Errno where
  | econnreset
  | einval
  deriving DecidableEq

/-! ### The client -/

/-- `struct atdd_cmd_parse`. -/
structure AtddCmdParse where
  st : StatusCode
  rqIdent : UInt64
  completed : Bool

/-- What `struct atdd_tcp_client` holds of the buffers, the positions in them and the socket. -/
structure AtddTcpClient where
  hmacKey : List UInt8
  /-- what `kernel_recvmsg` will hand over, call by call; an empty piece is `-EAGAIN` or `-ERESTARTSYS` -/
  sock : List (List UInt8)
  sendBuf : Block UInt8 maxCmdSize
  sendBufPos : ℕ
  completedPos : UInt8
  acceptedPos : UInt8
  parseBuf : Block UInt8 maxResponseSize
  parseBufPos : ℕ
  parseState : AtddCmdParse

/-- What the driver takes from a `struct request`. -/
structure Request where
  /-- `rq_data_dir(rq) == 1` -/
  isWrite : Bool
  /-- `blk_rq_pos(rq)`, in units of 512 bytes -/
  pos : UInt64
  /-- what `bio_data(rq->bio)` points to -/
  data : Block UInt8 sectorSize

/-- `struct atdd_cmd_return`, with what `data` points to. -/
structure AtddCmdReturn where
  ident : UInt64
  data : List UInt8
  rcode : StatusCode

/-! ### Requests -/

/-- `setup_send_buf`: `strcpy` copies the terminating NUL as well. -/
def setupSendBuf (c : AtddTcpClient) : Option AtddTcpClient := do
  let sendBuf ← c.sendBuf.store 0 (magicNumber ++ [0])
  some { c with sendBuf }

/-- `hmac_tag_prepare`: the tag of what is in front of the position, behind it. -/
def hmacTagPrepare (h : Hmac) (c : AtddTcpClient) : Option AtddTcpClient := do
  let message ← c.sendBuf.load 0 c.sendBufPos
  let sendBuf ← c.sendBuf.store c.sendBufPos (h.tag c.hmacKey message)
  some { c with sendBuf }

/-- A copy to `send_buf + send_buf_pos`, which moves the position on. -/
def appendToSendBuf (c : AtddTcpClient) (bytes : List UInt8) : Option AtddTcpClient := do
  let sendBuf ← c.sendBuf.store c.sendBufPos bytes
  some { c with sendBuf, sendBufPos := c.sendBufPos + bytes.length }

/-- The part of `prepare_cmd_content` for the data, which a write has. -/
def appendData (c : AtddTcpClient) (rq : Request) : Option AtddTcpClient := do
  let type ← c.sendBuf.load 7 1
  if type = [writeCmd] then appendToSendBuf c rq.data.items else some c

/-- `prepare_cmd_content`. -/
def prepareCmdContent (h : Hmac) (c : AtddTcpClient) (rq : Request) (ident : UInt64) :
    Option AtddTcpClient := do
  let c := { c with sendBufPos := sendBufPosStart }
  let c ← appendToSendBuf c [if rq.isWrite then writeCmd else readCmd]
  let c ← appendToSendBuf c (toBeBytes ident)
  let c ← appendToSendBuf c (toBeBytes (rq.pos >>> 3))
  let c ← appendData c rq
  let c ← hmacTagPrepare h c
  some { c with sendBufPos := c.sendBufPos + hmacTagSize }

/-! ### Responses -/

/-- The loop of `tcp_read`: `left` bytes from the socket into the buffer, from the offset on. A call of
    `kernel_recvmsg` hands over at most `left` bytes of the next piece. -/
def tcpRead {n : ℕ} (buf : Block UInt8 n) (off : ℕ) :
    List (List UInt8) → ℕ → Option (Except Errno Unit × Block UInt8 n × List (List UInt8))
  | sock, 0 => some (.ok (), buf, sock)
  | [], _ + 1 => some (.error .econnreset, buf, [])
  | piece :: sock, left + 1 => do
    let bytes := piece.take (left + 1)
    let buf ← buf.store off bytes
    if piece.length ≤ left + 1 then tcpRead buf (off + bytes.length) sock (left + 1 - bytes.length)
    else some (.ok (), buf, piece.drop (left + 1) :: sock)

/-- `progress_tcp_data_to_limit`. -/
def progressTcpDataToLimit (c : AtddTcpClient) (limit : ℕ) : Option (Except Errno Unit × AtddTcpClient) := do
  let (res, parseBuf, sock) ← tcpRead c.parseBuf c.parseBufPos c.sock (limit - c.parseBufPos)
  let c := { c with parseBuf, sock }
  match res with
  | .error e => some (.error e, c)
  | .ok () => some (.ok (), { c with parseBufPos := limit })

/-- How far the loop of `slide_to_atdd_magic` slides. -/
def slideLength (c : AtddTcpClient) : ℕ :=
  ((List.range (c.parseBufPos + 1)).find? fun slide =>
    decide (c.parseBufPos < slide + magicNumber.length) ||
      decide (c.parseBuf.load slide magicNumber.length = some magicNumber)).getD 0

/-- `slide_to_atdd_magic`, up to its `BUG_ON`; nothing is moved without a slide. -/
def slideToAtddMagic (c : AtddTcpClient) : Option AtddTcpClient :=
  if slideLength c ≠ 0 then none else some c

def parseStatusCode (byte : UInt8) : Except Errno StatusCode :=
  if byte = 0 then .ok .ok
  else if byte = 1 then .ok .authFailure
  else if byte = 2 then .ok .invalidSectorIndex
  else .error .einval

/-- One byte of a buffer. -/
def byteAt {n : ℕ} (b : Block UInt8 n) (i : ℕ) : Option UInt8 := do
  let bytes ← b.load i 1
  bytes.head?

/-- The rest of `progress_tcp_data`, once the smallest response is there. -/
def progressBehindHeader (c : AtddTcpClient) (limit : ℕ) : Option (Except Errno Unit × AtddTcpClient) := do
  let ident ← c.parseBuf.load 8 8
  let c := { c with parseState := { c.parseState with rqIdent := UInt64.ofNat (ofBytes ident) } }
  let type ← byteAt c.parseBuf 7
  let limit := if c.parseState.st = .ok ∧ type = 0x40 + readCmd then limit + sectorSize else limit
  let (res, c) ← progressTcpDataToLimit c limit
  match res with
  | .error e => some (.error e, c)
  | .ok () => some (.ok (), { c with parseState := { c.parseState with completed := true } })

/-- The loop of `progress_tcp_data`, which one turn ends: it sets the position to the limit. -/
def progressToHeader (c : AtddTcpClient) (limit : ℕ) : Option (Except Errno Unit × AtddTcpClient) :=
  if c.parseBufPos < limit then do
    let (res, c) ← progressTcpDataToLimit c limit
    match res with
    | .error e => some (.error e, c)
    | .ok () => (slideToAtddMagic c).map fun c => (.ok (), c)
  else some (.ok (), c)

/-- `progress_tcp_data`. -/
def progressTcpData (c : AtddTcpClient) : Option (Except Errno Unit × AtddTcpClient) := do
  let limit := minResponseSize
  let (res, c) ← progressToHeader c limit
  match res with
  | .error e => some (.error e, c)
  | .ok () =>
    if c.parseBufPos = limit then do
      let status ← byteAt c.parseBuf 6
      match parseStatusCode status with
      | .error e => some (.error e, { c with parseBufPos := 0 })
      | .ok st => progressBehindHeader { c with parseState := { c.parseState with st } } limit
    else progressBehindHeader c limit

/-- `validate_cmd_parse_hmac`. -/
def validateCmdParseHmac (h : Hmac) (c : AtddTcpClient) : Option (Except Errno Unit) := do
  let message ← c.parseBuf.load 0 (c.parseBufPos - hmacTagSize)
  let tag ← c.parseBuf.load (c.parseBufPos - hmacTagSize) hmacTagSize
  some (if h.tag c.hmacKey message = tag then .ok () else .error .einval)

/-- `atdd_fetch_command`: `none` inside is the return value 0, a command return is 1. -/
def atddFetchCommand (h : Hmac) (c : AtddTcpClient) :
    Option (Except Errno (Option AtddCmdReturn) × AtddTcpClient) :=
  if c.acceptedPos = c.completedPos then some (.ok none, c)
  else do
    let (res, c) ← progressTcpData c
    match res with
    | .error e => some (.error e, c)
    | .ok () =>
      if c.parseState.completed = false then some (.ok none, c)
      else do
        let valid ← validateCmdParseHmac h c
        match valid with
        | .error e => some (.error e, { c with parseBufPos := 0 })
        | .ok () => do
          let data ← c.parseBuf.load atddResponseHeaderSize sectorSize
          some (.ok (some ⟨c.parseState.rqIdent, data, c.parseState.st⟩),
            { c with
              parseBufPos := 0
              parseState := { c.parseState with completed := false }
              completedPos := c.completedPos + 1 })

end AtomicDisk.Driver
