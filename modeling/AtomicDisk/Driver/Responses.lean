import AtomicDisk.Driver.TcpClient
import AtomicDisk.Process.RegisterProcess
import AtomicDisk.Transfer.RoundTrip

/-! Responses of a process, as the driver takes them off its socket. The process knows from the result of
    the operation how long a response is; the driver reads the 48 bytes that every response has and decides
    from status and type whether 4096 more are to come:

        without content  │ header (16) │ tag (32) │
        with content     │ header (16) │ content (4096)                  │ tag (32) │
                         └── read first (48) ─────┘

    The two agree on every response, so a call of `atdd_fetch_command` ends where the next response
    begins. -/

namespace AtomicDisk.Driver
open Schemes Transfer Process

variable {h : Hmac} {c c' : AtddTcpClient} {n : ℕ} {b : Block UInt8 n} {l bytes rest : List UInt8}

/-! ### From the socket to the buffer -/

/-- `tcp_read`, however the bytes arrive: the next `left` bytes, and the others stay. -/
theorem tcpRead_ok (b : Block UInt8 n) (off : ℕ) (sock : List (List UInt8)) (left : ℕ)
    (hleft : left ≤ sock.flatten.length) (hfits : off + left ≤ n) :
    ∃ b' sock', tcpRead b off sock left = some (.ok (), b', sock') ∧
      b'.front (off + left) = b.front off ++ sock.flatten.take left ∧
      sock'.flatten = sock.flatten.drop left := by
  induction sock generalizing b off left with
  | nil =>
    obtain rfl : left = 0 := by simpa using hleft
    exact ⟨b, [], rfl, by simp, rfl⟩
  | cons piece sock ih =>
    cases left with
    | zero => exact ⟨b, piece :: sock, rfl, by simp, by simp⟩
    | succ left =>
      rcases le_or_gt piece.length (left + 1) with hle | hgt
      · -- the whole piece, and then the rest from the others
        rw [List.flatten_cons, List.length_append] at hleft
        obtain ⟨b₁, hstore, hfront₁, -⟩ := b.store_front (show off + piece.length ≤ n by omega)
        obtain ⟨b₂, sock', hread, hfront₂, hsock⟩ := ih b₁ (off + piece.length)
          (left + 1 - piece.length) (by omega) (by omega)
        refine ⟨b₂, sock', ?_, ?_, ?_⟩
        · simp only [tcpRead, List.take_of_length_le hle, hstore, Option.bind_eq_bind, Option.bind_some,
            if_pos hle, hread]
        · rw [show off + piece.length + (left + 1 - piece.length) = off + (left + 1) by omega] at hfront₂
          rw [hfront₂, hfront₁, List.flatten_cons, List.take_append, List.take_of_length_le hle,
            List.append_assoc]
        · rw [hsock, List.flatten_cons, List.drop_append, List.drop_of_length_le hle, List.nil_append]
      · have htake : (piece.take (left + 1)).length = left + 1 := List.length_take_of_le hgt.le
        obtain ⟨b₁, hstore, hfront₁, -⟩ := b.store_front (htake.symm ▸ hfits)
        rw [htake] at hfront₁
        refine ⟨b₁, piece.drop (left + 1) :: sock, ?_, ?_, ?_⟩
        · simp only [tcpRead, hstore, Option.bind_eq_bind, Option.bind_some, if_neg (not_le.mpr hgt)]
        · rw [hfront₁, List.flatten_cons, List.take_append_of_le_length hgt.le]
        · rw [List.flatten_cons, List.flatten_cons, List.drop_append_of_le_length hgt.le]

/-- The next bytes up to the limit. -/
theorem progressTcpDataToLimit_ok {limit : ℕ} (c : AtddTcpClient) (hlimit : limit ≤ maxResponseSize)
    (hpos : c.parseBufPos + bytes.length = limit) (hsock : c.sock.flatten = bytes ++ rest) :
    ∃ b sock, progressTcpDataToLimit c limit =
        some (.ok (), { c with parseBuf := b, sock, parseBufPos := limit }) ∧
      b.front limit = c.parseBuf.front c.parseBufPos ++ bytes ∧ sock.flatten = rest := by
  have hleft : limit - c.parseBufPos = bytes.length := by omega
  obtain ⟨b, sock, hread, hfront, hrest⟩ := tcpRead_ok c.parseBuf c.parseBufPos c.sock bytes.length
    (by rw [hsock, List.length_append]; omega) (by omega)
  refine ⟨b, sock, ?_, ?_, ?_⟩
  · simp only [progressTcpDataToLimit, hleft, hread, Option.bind_eq_bind, Option.bind_some]
  · rw [hpos] at hfront
    rw [hfront, hsock, List.take_left]
  · rw [hrest, hsock, List.drop_left]

/-! ### The header of a response -/

/-- The first 16 bytes of a response. -/
def responseHeader (status : StatusCode) (type : UInt8) (rid : UInt64) : List UInt8 :=
  magicNumber ++ ([0, 0, status.toU8, type] ++ toBeBytes rid)

section header

variable {m : ℕ} {status : StatusCode} {type : UInt8} {rid : UInt64}

theorem responseHeader_length : (responseHeader status type rid).length = 16 := by
  simp [responseHeader, magicNumber]

theorem byteAt_status (hm : m ≤ n) (hp : responseHeader status type rid <+: b.front m) :
    byteAt b 6 = some status.toU8 := by
  rw [byteAt, Block.load_of_isPrefix hm hp (by rw [responseHeader_length]; decide)]
  rfl

theorem byteAt_type (hm : m ≤ n) (hp : responseHeader status type rid <+: b.front m) :
    byteAt b 7 = some type := by
  rw [byteAt, Block.load_of_isPrefix hm hp (by rw [responseHeader_length]; decide)]
  rfl

theorem load_ident (hm : m ≤ n) (hp : responseHeader status type rid <+: b.front m) :
    b.load 8 8 = some (toBeBytes rid) := by
  rw [Block.load_of_isPrefix hm hp (by rw [responseHeader_length])]
  exact congrArg some (List.take_of_length_le (toBeBytes_length rid).le)

theorem parseStatusCode_toU8 (status : StatusCode) : parseStatusCode status.toU8 = .ok status := by
  cases status <;> rfl

/-- A response begins with the magic number, so there is nothing to slide over. -/
theorem slideToAtddMagic_eq (hm : c.parseBufPos ≤ maxResponseSize)
    (hp : responseHeader status type rid <+: c.parseBuf.front c.parseBufPos) :
    slideToAtddMagic c = some c := by
  have hload : c.parseBuf.load 0 magicNumber.length = some magicNumber :=
    (Block.load_of_isPrefix hm hp (by rw [responseHeader_length]; decide)).trans rfl
  have hslide : slideLength c = 0 := by
    rw [slideLength, List.range_succ_eq_map, List.find?_cons_of_pos (by simp [hload])]
    rfl
  rw [slideToAtddMagic, if_neg (not_not.mpr hslide)]

end header

/-! ### One response -/

/-- The size that the driver expects. -/
def expectedSize (status : StatusCode) (type : UInt8) : ℕ :=
  if status = .ok ∧ type = 0x40 + readCmd then minResponseSize + sectorSize else minResponseSize

theorem min_le_expectedSize (status : StatusCode) (type : UInt8) :
    minResponseSize ≤ expectedSize status type ∧ expectedSize status type ≤ maxResponseSize := by
  unfold expectedSize
  split <;> decide

section response

variable {status : StatusCode} {type : UInt8} {rid : UInt64} {response : List UInt8}

/-- The first 48 bytes. -/
theorem progressToHeader_ok (hp : responseHeader status type rid <+: response)
    (hsize : minResponseSize ≤ response.length) (hpos : c.parseBufPos = 0)
    (hsock : c.sock.flatten = response ++ rest) :
    ∃ b sock, progressToHeader c minResponseSize =
        some (.ok (), { c with parseBuf := b, sock, parseBufPos := minResponseSize }) ∧
      b.front minResponseSize = response.take minResponseSize ∧
      responseHeader status type rid <+: b.front minResponseSize ∧
      sock.flatten = response.drop minResponseSize ++ rest := by
  have htake : (response.take minResponseSize).length = minResponseSize := List.length_take_of_le hsize
  have hsplit : c.sock.flatten =
      response.take minResponseSize ++ (response.drop minResponseSize ++ rest) := by
    rw [hsock, ← List.append_assoc, List.take_append_drop]
  obtain ⟨b, sock, hread, hfront, hrest⟩ := progressTcpDataToLimit_ok c
    (show minResponseSize ≤ maxResponseSize by decide) (by rw [hpos, htake, zero_add]) hsplit
  have hb : b.front minResponseSize = response.take minResponseSize := by
    rw [hfront, hpos]
    rfl
  have hpb : responseHeader status type rid <+: b.front minResponseSize := by
    rw [hb]
    exact List.prefix_of_prefix_length_le hp (List.take_prefix _ _)
      (by rw [responseHeader_length, htake]; decide)
  refine ⟨b, sock, ?_, hb, hpb, hrest⟩
  rw [progressToHeader, if_pos (by rw [hpos]; decide), hread]
  simp only [Option.bind_eq_bind, Option.bind_some]
  rw [slideToAtddMagic_eq (show minResponseSize ≤ maxResponseSize by decide) hpb]
  rfl

/-- The rest of it. -/
theorem progressBehindHeader_ok (hp : responseHeader status type rid <+: c.parseBuf.front minResponseSize)
    (hpos : c.parseBufPos = minResponseSize) (hst : c.parseState.st = status)
    (hsize : minResponseSize + bytes.length = expectedSize status type)
    (hsock : c.sock.flatten = bytes ++ rest) :
    ∃ b sock, progressBehindHeader c minResponseSize =
        some (.ok (), { c with parseBuf := b, sock, parseBufPos := expectedSize status type
                               parseState := ⟨status, rid, true⟩ }) ∧
      b.front (expectedSize status type) = c.parseBuf.front minResponseSize ++ bytes ∧
      sock.flatten = rest := by
  have hm : minResponseSize ≤ maxResponseSize := by decide
  have hrid : UInt64.ofNat (ofBytes (toBeBytes rid)) = rid := fromBeBytes_toBeBytes rid
  obtain ⟨b, sock, hread, hfront, hrest⟩ := progressTcpDataToLimit_ok
    { c with parseState := ⟨status, rid, c.parseState.completed⟩ } (min_le_expectedSize status type).2
    (by rw [hpos, hsize]) hsock
  rw [hpos] at hfront
  refine ⟨b, sock, ?_, hfront, hrest⟩
  simp only [progressBehindHeader, load_ident hm hp, byteAt_type hm hp, hrid, hst, Option.bind_eq_bind,
    Option.bind_some]
  rw [← expectedSize, hread]
  rfl

/-- `progress_tcp_data` takes the response, and no more. -/
theorem progressTcpData_ok (hp : responseHeader status type rid <+: response)
    (hsize : response.length = expectedSize status type) (hpos : c.parseBufPos = 0)
    (hsock : c.sock.flatten = response ++ rest) :
    ∃ b sock, progressTcpData c =
        some (.ok (), { c with parseBuf := b, sock, parseBufPos := expectedSize status type
                               parseState := ⟨status, rid, true⟩ }) ∧
      b.front (expectedSize status type) = response ∧ sock.flatten = rest := by
  have hm : minResponseSize ≤ maxResponseSize := by decide
  have hmin : minResponseSize ≤ response.length := hsize ▸ (min_le_expectedSize status type).1
  obtain ⟨b₁, sock₁, hread₁, hfront₁, hp₁, hsock₁⟩ := progressToHeader_ok hp hmin hpos hsock
  obtain ⟨b₂, sock₂, hread₂, hfront₂, hsock₂⟩ := progressBehindHeader_ok
    (c := { c with parseBuf := b₁, sock := sock₁, parseBufPos := minResponseSize
                   parseState := { c.parseState with st := status } })
    hp₁ rfl rfl (by rw [List.length_drop]; omega) hsock₁
  refine ⟨b₂, sock₂, ?_, ?_, hsock₂⟩
  · simp only [progressTcpData, hread₁, byteAt_status hm hp₁, parseStatusCode_toU8, hread₂,
      Option.bind_eq_bind, Option.bind_some, if_true]
  · rw [hfront₂, hfront₁, List.take_append_drop]

end response

/-- A response of a process, in parts. -/
theorem constructResponse_eq (h : Hmac) (key : List UInt8) (status : StatusCode) (msgType : UInt8)
    (rid : UInt64) (content : List UInt8) :
    constructResponse h key status msgType rid content =
      responseHeader status (msgType + 0x40) rid ++ content ++
        h.tag key (responseHeader status (msgType + 0x40) rid ++ content) := by
  simp [constructResponse, responseHeader, Mac.finalize, Mac.update, Mac.newFromSlice]

/-- Content is there exactly when the driver expects it. -/
def ContentExpected (status : StatusCode) (msgType : UInt8) (content : List UInt8) : Prop :=
  minResponseSize + content.length = expectedSize status (msgType + 0x40)

/-- The tag of the process is the one that the driver computes. -/
theorem validateCmdParseHmac_ok {message : List UInt8} (hm : c.parseBufPos ≤ maxResponseSize)
    (hfront : c.parseBuf.front c.parseBufPos = message ++ h.tag c.hmacKey message) :
    validateCmdParseHmac h c = some (.ok ()) := by
  have htag : (h.tag c.hmacKey message).length = hmacTagSize := h.size _ _
  have hlength : message.length + hmacTagSize = c.parseBufPos := by
    rw [← c.parseBuf.front_length hm, hfront, List.length_append, htag]
  have hmessage : c.parseBuf.load 0 (c.parseBufPos - hmacTagSize) = some message := by
    rw [c.parseBuf.load_front hm (by omega), hfront, List.drop_zero, ← hlength, Nat.add_sub_cancel,
      List.take_left]
  have hload : c.parseBuf.load (c.parseBufPos - hmacTagSize) hmacTagSize =
      some (h.tag c.hmacKey message) := by
    rw [c.parseBuf.load_front hm (by omega), hfront, ← hlength, Nat.add_sub_cancel, List.drop_left,
      List.take_of_length_le htag.le]
  simp only [validateCmdParseHmac, hmessage, hload, Option.bind_eq_bind, Option.bind_some, if_true]

/-- One call of `atdd_fetch_command` takes one response. -/
theorem atddFetchCommand_ok {status : StatusCode} {msgType : UInt8} {rid : UInt64}
    {content : List UInt8} (hcontent : ContentExpected status msgType content)
    (hpending : c.acceptedPos ≠ c.completedPos) (hpos : c.parseBufPos = 0)
    (hsock : c.sock.flatten = constructResponse h c.hmacKey status msgType rid content ++ rest) :
    ∃ data c', atddFetchCommand h c = some (.ok (some ⟨rid, data, status⟩), c') ∧
      (content.length = sectorSize → data = content) ∧ c'.sock.flatten = rest ∧
      c'.parseBufPos = 0 ∧ c'.hmacKey = c.hmacKey ∧ c'.acceptedPos = c.acceptedPos ∧
      c'.completedPos = c.completedPos + 1 := by
  rw [constructResponse_eq] at hsock
  have hlength : (responseHeader status (msgType + 0x40) rid ++ content ++
      h.tag c.hmacKey (responseHeader status (msgType + 0x40) rid ++ content)).length =
        expectedSize status (msgType + 0x40) := by
    rw [← hcontent, List.length_append, List.length_append, responseHeader_length, h.size]
    simp only [hmacTagSize, minResponseSize, atddResponseHeaderSize]
    omega
  obtain ⟨b, sock, hread, hfront, hrest⟩ := progressTcpData_ok
    (by rw [List.append_assoc]; exact List.prefix_append _ _) hlength hpos hsock
  have hm := (min_le_expectedSize status (msgType + 0x40)).2
  have hvalid : validateCmdParseHmac h { c with
      parseBuf := b
      sock
      parseBufPos := expectedSize status (msgType + 0x40)
      parseState := ⟨status, rid, true⟩ } = some (.ok ()) := validateCmdParseHmac_ok hm hfront
  obtain ⟨data, hdata⟩ : ∃ data, b.load atddResponseHeaderSize sectorSize = some data :=
    ⟨_, if_pos (by decide)⟩
  refine ⟨data, { c with
      parseBuf := b
      sock
      parseBufPos := 0
      parseState := ⟨status, rid, false⟩
      completedPos := c.completedPos + 1 }, ?_, fun hsector => ?_, hrest, rfl, rfl, rfl, rfl⟩
  · simp [atddFetchCommand, hpending, hread, hvalid, hdata]
  · have hcopy : b.load atddResponseHeaderSize sectorSize = some content := by
      have hp : responseHeader status (msgType + 0x40) rid ++ content <+:
          b.front (expectedSize status (msgType + 0x40)) := hfront ▸ List.prefix_append _ _
      rw [Block.load_of_isPrefix hm hp (by rw [List.length_append, responseHeader_length, hsector]; rfl),
        atddResponseHeaderSize, List.drop_left' responseHeader_length, List.take_of_length_le hsector.le]
    exact Option.some.inj (hdata.symm.trans hcopy)

/-! ### All responses -/

/-- A response of a process to a read or write command. -/
inductive Answer where
  /-- the result of a read: 4096 bytes, and of type 0x01 -/
  | readDone (opRequest rid : UInt64) (data : Block UInt8 4096)
  /-- the result of a write: no content, and of type 0x02 -/
  | writeDone (opRequest rid : UInt64)
  | invalidHmac (msgType : UInt8) (isClient : msgType = 0x01 ∨ msgType = 0x02) (rid : UInt64)
  | invalidSectorIndex (msgType : UInt8) (isClient : msgType = 0x01 ∨ msgType = 0x02) (rid : UInt64)

/-- The bytes that the process writes. -/
def Answer.wire (h : Hmac) (key : List UInt8) : Answer → List UInt8
  | .readDone opRequest rid data => constructValidResponse h ⟨opRequest, .read ⟨data.items⟩⟩ key 0x01 rid
  | .writeDone opRequest rid => constructValidResponse h ⟨opRequest, .write⟩ key 0x02 rid
  | .invalidHmac msgType _ rid => constructInvalidHmacResponse h key msgType rid
  | .invalidSectorIndex msgType _ rid => constructInvalidSectorIndexResponse h key msgType rid

def Answer.status : Answer → StatusCode
  | .readDone .. | .writeDone .. => .ok
  | .invalidHmac .. => .authFailure
  | .invalidSectorIndex .. => .invalidSectorIndex

def Answer.rid : Answer → UInt64
  | .readDone _ rid _ | .writeDone _ rid | .invalidHmac _ _ rid | .invalidSectorIndex _ _ rid => rid

/-- The data, for a read. -/
def Answer.readData : Answer → Option (List UInt8)
  | .readDone _ _ data => some data.items
  | _ => none

/-- What is between header and tag, and the type. -/
theorem Answer.wire_eq (a : Answer) (h : Hmac) (key : List UInt8) : ∃ msgType content,
    a.wire h key = constructResponse h key a.status msgType a.rid content ∧
    ContentExpected a.status msgType content ∧
    ∀ data, a.readData = some data → content = data ∧ content.length = sectorSize := by
  cases a with
  | readDone opRequest rid data =>
    refine ⟨0x01, data.items, rfl, ?_, ?_⟩
    · rw [ContentExpected, data.size]
      rfl
    · rintro _ ⟨⟩
      exact ⟨rfl, data.size⟩
  | writeDone opRequest rid => exact ⟨0x02, [], rfl, rfl, by rintro _ ⟨⟩⟩
  | invalidHmac msgType isClient rid => exact ⟨msgType, [], rfl, rfl, by rintro _ ⟨⟩⟩
  | invalidSectorIndex msgType isClient rid => exact ⟨msgType, [], rfl, rfl, by rintro _ ⟨⟩⟩

/-- A stream of responses. -/
def wireOf (h : Hmac) (key : List UInt8) (answers : List Answer) : List UInt8 :=
  (answers.map (Answer.wire h key)).flatten

/-- Calls of `atdd_fetch_command`, one after the other: what each returns, and what it leaves on the
    socket. -/
def fetchTimes (h : Hmac) : ℕ → AtddTcpClient →
    Option (List (Except Errno (Option AtddCmdReturn) × List UInt8) × AtddTcpClient)
  | 0, c => some ([], c)
  | k + 1, c => do
    let (res, c) ← atddFetchCommand h c
    let (others, c') ← fetchTimes h k c
    some ((res, c.sock.flatten) :: others, c')

/-- What a call returns for a response, and leaves for the others. -/
structure Returned (a : Answer) (left : List UInt8)
    (outcome : Except Errno (Option AtddCmdReturn) × List UInt8) : Prop where
  left_eq : outcome.2 = left
  result : ∃ data, outcome.1 = .ok (some ⟨a.rid, data, a.status⟩) ∧
    ∀ readData, a.readData = some readData → data = readData

/-- After a command is completed, one less is pending. -/
theorem pending_pred {accepted completed : UInt8} {k : ℕ} (hk : k + 1 ≤ (accepted - completed).toNat) :
    k ≤ (accepted - (completed + 1)).toNat := by
  have hsub : accepted - (completed + 1) = accepted - completed - 1 := by grind
  have hone : (1 : UInt8).toNat = 1 := rfl
  have hle : 1 ≤ accepted - completed := by
    rw [UInt8.le_iff_toNat_le, hone]
    omega
  rw [hsub, UInt8.toNat_sub_of_le _ _ hle, hone]
  omega

/-- CORRECT (responses): however the bytes of some responses reach the driver, that many calls of
    `atdd_fetch_command` return status, identifier and read data of each in order, accept each tag, and
    each takes exactly its own response off the socket; no access is outside the parse buffer. -/
theorem fetch_answers (h : Hmac) (c : AtddTcpClient) (answers : List Answer) (rest : List UInt8)
    (hpos : c.parseBufPos = 0)
    (hpending : answers.length ≤ (c.acceptedPos - c.completedPos).toNat)
    (hsock : c.sock.flatten = wireOf h c.hmacKey answers ++ rest) :
    ∃ outcomes c', fetchTimes h answers.length c = some (outcomes, c') ∧
      outcomes.length = answers.length ∧ c'.sock.flatten = rest ∧
      ∀ i a, answers[i]? = some a → ∃ outcome, outcomes[i]? = some outcome ∧
        Returned a (wireOf h c.hmacKey (answers.drop (i + 1)) ++ rest) outcome := by
  induction answers generalizing c with
  | nil => exact ⟨[], c, rfl, rfl, hsock, by simp⟩
  | cons a answers ih =>
    obtain ⟨msgType, content, hbytes, hcontent, hdata⟩ := a.wire_eq h c.hmacKey
    have hsplit : c.sock.flatten = constructResponse h c.hmacKey a.status msgType a.rid content ++
        (wireOf h c.hmacKey answers ++ rest) := by
      rw [hsock, ← hbytes]
      simp [wireOf]
    have hne : c.acceptedPos ≠ c.completedPos := by
      intro heq
      rw [heq, UInt8.sub_self] at hpending
      simp at hpending
    obtain ⟨data, c₁, hfetch, hcopy, hsock₁, hpos₁, hkey₁, haccepted, hcompleted⟩ :=
      atddFetchCommand_ok hcontent hne hpos hsplit
    have hpending₁ : answers.length ≤ (c₁.acceptedPos - c₁.completedPos).toNat := by
      rw [haccepted, hcompleted]
      exact pending_pred hpending
    obtain ⟨outcomes, c', hothers, hlength, hrest, hreturned⟩ :=
      ih c₁ hpos₁ hpending₁ (by rw [hkey₁, hsock₁])
    refine ⟨(.ok (some ⟨a.rid, data, a.status⟩), c₁.sock.flatten) :: outcomes, c', ?_, ?_, hrest, ?_⟩
    · simp only [List.length_cons, fetchTimes, hfetch, hothers, Option.bind_eq_bind, Option.bind_some]
    · rw [List.length_cons, List.length_cons, hlength]
    · intro i a' ha'
      cases i with
      | zero =>
        obtain rfl : a = a' := by simpa using ha'
        refine ⟨_, rfl, hsock₁, data, rfl, ?_⟩
        intro readData hread
        obtain ⟨rfl, hsector⟩ := hdata readData hread
        exact hcopy hsector
      | succ i =>
        rw [List.getElem?_cons_succ] at ha' ⊢
        rw [← hkey₁]
        exact hreturned i a' ha'

/-- A client with nothing parsed yet, and `accepted` commands pending. -/
def pendingClient (sock : List (List UInt8)) (accepted : UInt8) : AtddTcpClient where
  hmacKey := []
  sock
  sendBuf := ⟨List.replicate _ 0, List.length_replicate⟩
  sendBufPos := 0
  completedPos := 0
  acceptedPos := accepted
  parseBuf := ⟨List.replicate _ 0, List.length_replicate⟩
  parseBufPos := 0
  parseState := ⟨.ok, 0, false⟩

/-- A read, a rejected write, and a write. -/
def threeAnswers : List Answer :=
  [.readDone 7 7 ⟨List.replicate 4096 5, List.length_replicate⟩, .invalidHmac 0x02 (by decide) 8,
    .writeDone 9 9]

theorem fetch_threeAnswers :
    ∃ outcomes c', fetchTimes sumHmac 3 (pendingClient [wireOf sumHmac [] threeAnswers] 3) =
        some (outcomes, c') ∧ outcomes.length = 3 ∧ c'.sock.flatten = [] ∧
      ∀ i a, threeAnswers[i]? = some a → ∃ outcome, outcomes[i]? = some outcome ∧
        Returned a (wireOf sumHmac [] (threeAnswers.drop (i + 1)) ++ []) outcome :=
  fetch_answers sumHmac (pendingClient [wireOf sumHmac [] threeAnswers] 3) threeAnswers [] rfl
    (by decide) (by simp only [pendingClient, List.flatten_singleton, List.append_nil])

end AtomicDisk.Driver
