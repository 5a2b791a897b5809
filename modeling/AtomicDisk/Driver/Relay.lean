import AtomicDisk.Driver.TcpClient
import AtomicDisk.Schemes.Ring
import AtomicDisk.Schemes.Run

/-! A relay thread of the driver (`atomic_disc_driver.c`). The block layer submits requests into a ring of 256
    slots, and the thread takes them through three positions in it:

          completed          forwarded           accepted
        ──────┬──────────────────┬──────────────────┬──────
        ended │ sent, unanswered │ submitted        │ ended, or never used
        ──────┴──────────────────┴──────────────────┴──────

        atdd_main:  wait ──▶ error? ──▶ data? ──▶ finish all responses ──▶ send what is accepted ──▶ wait
                              │                        │ fetch error              │ send error
                              └────────────────────────┴──────────────────────────┘
                                              forwarded := completed

    A `uint8_t` position is a `BitVec 8`. Of the client of `atdd_tcp_client.c` a relay sees what its calls
    return; what is kept of it here is what they depend on. `inFlight`, `submitted` and `ended` are no
    variables of the driver: they tell what has happened. -/

namespace AtomicDisk.Driver
open Schemes

/-- `ATDD_REQUESTS_BUF_SIZE`. -/
def atddRequestsBufSize : ℕ := 256

/-- `ATDD_CLIENT_SEND_AHEAD`. -/
def atddClientSendAhead : BitVec 8 := 255

/-- `ATDD_THREADS_COUNT`. -/
def atddThreadsCount : UInt64 := 10

/-- A request of the block layer; `serial` tells the submissions to the relay apart. -/
structure BlkRequest where
  serial : ℕ
  rq : Request

/-- `struct atdd_request`. A content of `none` is a pointer that was never stored: the memory of the ring is
    not initialised. -/
structure AtddRequest where
  ident : UInt64
  content : Option BlkRequest

/-- The status a request is ended with. -/
inductive BlkStatus where
  | success
  | eio
  deriving DecidableEq

/-- A call of `blk_end_request_all`, with what has been copied to the pages of the request before. -/
structure EndRequest where
  rq : BlkRequest
  status : BlkStatus
  data : Option (List UInt8)

/-- Where `atdd_main` is. -/
inductive Phase where
  /-- in `wait_event_interruptible` -/
  | waiting
  /-- before `atdd_client_has_error` -/
  | awake
  /-- before `atdd_client_has_data` -/
  | looking
  /-- in the loop of `atdd_finish_all_completed_requests`, with its variable `rq` -/
  | finishing (rq : Option BlkRequest)
  /-- before `atdd_send_accepted_requests` -/
  | ready
  /-- in the loop of `atdd_send_accepted_requests`, with `cmds_to_send` -/
  | sending (cmdsToSend : ℕ)
  /-- a pointer that was never stored has been used -/
  | fault

/-- A relay: `struct atdd_ktread_data`, the client's state, and what has happened. -/
structure Relay where
  bufTcpForwardedPos : BitVec 8
  requestIdentCounter : UInt64
  requestsBuf : BitVec 8 → AtddRequest
  bufAcceptedPos : BitVec 8
  bufCompletedPos : BitVec 8
  connected : Bool
  error : Bool
  pendingAcceptedPos : UInt8
  pendingCompletedPos : UInt8
  phase : Phase
  /-- the identifiers of the commands sent on the connection whose responses are still to come -/
  inFlight : List UInt64
  /-- the number of requests submitted with success -/
  submitted : ℕ
  ended : List EndRequest

/-- `atdd_kthread_data_create` for the thread `id`, with what is in the memory of the ring. -/
def Relay.create (id : UInt64) (memory : BitVec 8 → UInt64) : Relay where
  bufTcpForwardedPos := 0
  requestIdentCounter := id
  requestsBuf pos := ⟨memory pos, none⟩
  bufAcceptedPos := 0
  bufCompletedPos := 0
  connected := false
  error := false
  pendingAcceptedPos := 0
  pendingCompletedPos := 0
  phase := .waiting
  inFlight := []
  submitted := 0
  ended := []

/-! ### Submitting -/

inductive SubmitResult where
  | ok
  | enospc
  deriving DecidableEq

/-- `submit_atdd_request`. The difference of the positions is one of `int`s. -/
def submitAtddRequest (s : Relay) (rq : Request) : Relay × SubmitResult :=
  if (s.bufAcceptedPos.toNat : ℤ) - s.bufCompletedPos.toNat = 255 then (s, .enospc)
  else
    ({ s with
      requestsBuf := Function.update s.requestsBuf s.bufAcceptedPos
        ⟨s.requestIdentCounter, some ⟨s.submitted, rq⟩⟩
      bufAcceptedPos := s.bufAcceptedPos + 1
      requestIdentCounter := s.requestIdentCounter + atddThreadsCount
      submitted := s.submitted + 1 }, .ok)

/-! ### Finishing -/

/-- `convert_atdd_to_blk_status`. -/
def convertAtddToBlkStatus : StatusCode → BlkStatus
  | .ok => .success
  | .authFailure => .eio
  | .invalidSectorIndex => .eio

/-- `atdd_find_request_pos`: the first slot with the identifier, in the whole ring. -/
def atddFindRequestPos (buf : BitVec 8 → AtddRequest) (ident : UInt64) : Option (BitVec 8) :=
  ((List.range atddRequestsBufSize).find? fun pos => (buf (BitVec.ofNat 8 pos)).ident = ident).map (BitVec.ofNat 8)

/-- The end of a request by a response: the data of a read is copied. -/
def endRequest (cmdR : AtddCmdReturn) (rq : BlkRequest) : EndRequest :=
  let status := convertAtddToBlkStatus cmdR.rcode
  ⟨rq, status, if status = .success ∧ rq.rq.isWrite = false then some cmdR.data else none⟩

/-- The body of the loop of `atdd_finish_all_completed_requests`. -/
def finishCompletedRequest (s : Relay) (cmdR : AtddCmdReturn) (rq : Option BlkRequest) : Relay :=
  match atddFindRequestPos s.requestsBuf cmdR.ident with
  | none =>
    match rq with
    | none => { s with phase := .fault }
    | some rq => { s with ended := s.ended ++ [⟨rq, .eio, none⟩] }
  | some rqPos =>
    let content := (s.requestsBuf rqPos).content
    let s := { s with
      requestsBuf := Function.update
        (Function.update s.requestsBuf rqPos (s.requestsBuf s.bufCompletedPos))
        s.bufCompletedPos ⟨cmdR.ident, content⟩
      bufCompletedPos := s.bufCompletedPos + 1 }
    match content with
    | none => { s with phase := .fault }
    | some rq => { s with phase := .finishing (some rq), ended := s.ended ++ [endRequest cmdR rq] }

/-- What finishing a request leaves as it is, and what it does to the ring. -/
structure Finished (s s' : Relay) : Prop where
  error : s'.error = s.error
  pendingAccepted : s'.pendingAcceptedPos = s.pendingAcceptedPos
  pendingCompleted : s'.pendingCompletedPos = s.pendingCompletedPos
  counter : s'.requestIdentCounter = s.requestIdentCounter
  submitted : s'.submitted = s.submitted
  ring : s'.requestsBuf = s.requestsBuf ∨
    ∃ rqPos, s'.requestsBuf = Ring.swapOut s.requestsBuf s.bufCompletedPos rqPos

theorem atddFindRequestPos_ident {buf : BitVec 8 → AtddRequest} {ident : UInt64} {p : BitVec 8}
    (h : atddFindRequestPos buf ident = some p) : (buf p).ident = ident := by
  obtain ⟨pos, hfind, rfl⟩ := Option.map_eq_some_iff.mp h
  simpa using List.find?_some hfind

theorem finishCompletedRequest_finished (s : Relay) (cmdR : AtddCmdReturn) (rq : Option BlkRequest) :
    Finished s (finishCompletedRequest s cmdR rq) := by
  unfold finishCompletedRequest
  split
  · split <;> exact ⟨rfl, rfl, rfl, rfl, rfl, Or.inl rfl⟩
  · rename_i rqPos hfind
    have hslot : (⟨cmdR.ident, (s.requestsBuf rqPos).content⟩ : AtddRequest) = s.requestsBuf rqPos := by
      rw [← atddFindRequestPos_ident hfind]
    dsimp only
    rw [hslot]
    split <;> exact ⟨rfl, rfl, rfl, rfl, rfl, Or.inr ⟨rqPos, rfl⟩⟩

/-! ### Sending -/

/-- `atdd_cmds_to_send`. -/
def atddCmdsToSend (s : Relay) : ℕ :=
  min (s.bufAcceptedPos - s.bufTcpForwardedPos).toNat
    (atddClientSendAhead - (s.bufTcpForwardedPos - s.bufCompletedPos)).toNat

/-- What can come of `atdd_send_command`. -/
inductive SendOutcome where
  /-- the command is sent, after connecting if need be -/
  | sent
  /-- `prepare_cmd_content` fails -/
  | unprepared
  /-- there is no connection, and none can be made -/
  | unconnected
  /-- `tcp_send` fails -/
  | broken
  deriving DecidableEq

/-- After an error all commands that are not completed are to be sent again. -/
def sendAgain (s : Relay) : Relay := { s with bufTcpForwardedPos := s.bufCompletedPos }

/-- `atdd_disconnect`: the socket is released, and nothing more comes from it. -/
def atddDisconnect (s : Relay) : Relay :=
  { s with connected := false, pendingAcceptedPos := s.pendingCompletedPos, inFlight := [] }

/-- A connection is made if there is none, which clears the error. -/
def connect (s : Relay) : Relay := { s with connected := true, error := s.error && s.connected }

/-- One turn of the loop of `atdd_send_accepted_requests`; an error ends it, and the thread sleeps. -/
def sendAcceptedRequest (s : Relay) (cmdsToSend : ℕ) (outcome : SendOutcome) : Option Relay :=
  let request := s.requestsBuf s.bufTcpForwardedPos
  match request.content, outcome with
  | none, _ => some { s with phase := .fault }
  | some _, .sent =>
    let s := connect s
    some { s with
      pendingAcceptedPos := s.pendingAcceptedPos + 1
      inFlight := s.inFlight ++ [request.ident]
      bufTcpForwardedPos := s.bufTcpForwardedPos + 1
      phase := .sending cmdsToSend }
  | some _, .unprepared => some { sendAgain s with phase := .waiting }
  | some _, .unconnected => if s.connected then none else some { sendAgain s with phase := .waiting }
  | some _, .broken => some { sendAgain (atddDisconnect (connect s)) with phase := .waiting }

/-! ### The thread -/

/-- What can happen next. `received` tells whether the socket's receive queue is not empty. -/
inductive Event where
  | submit (rq : Request)
  /-- `atdd_sk_error_report` -/
  | connectionError
  /-- the response to a command that was sent will not come, or will not be understood -/
  | lose (ident : UInt64)
  /-- the wait ends -/
  | wake (received : Bool)
  /-- the test of `atdd_client_has_error` -/
  | handleError
  /-- the test of `atdd_client_has_data` -/
  | look (received : Bool)
  /-- `atdd_fetch_command` returns a response -/
  | fetch (cmdR : AtddCmdReturn)
  /-- `atdd_fetch_command` returns 0 -/
  | fetchNone
  /-- `atdd_fetch_command` returns an error -/
  | fetchError
  /-- `atdd_send_accepted_requests` is called -/
  | startSend
  /-- `atdd_send_command` is called -/
  | send (outcome : SendOutcome)
  /-- `atdd_send_accepted_requests` returns 0 -/
  | endSend

/-- `atdd_client_has_data`. -/
def atddClientHasData (s : Relay) (received : Bool) : Bool :=
  received && s.pendingAcceptedPos != s.pendingCompletedPos

/-- The relay thread, and the submissions that come at any time. A response answers a command that was sent
    on the connection, in any order. -/
def step (s : Relay) (e : Event) : Option (Relay × Option SubmitResult) :=
  match e, s.phase with
  | .submit rq, _ => some ((submitAtddRequest s rq).1, some (submitAtddRequest s rq).2)
  | .connectionError, _ => some ({ s with error := true }, none)
  | .lose ident, _ =>
    if ident ∈ s.inFlight then some ({ s with inFlight := s.inFlight.erase ident }, none) else none
  | .wake received, .waiting =>
    if atddClientHasData s received ∨ atddCmdsToSend s ≠ 0 ∨ s.error then some ({ s with phase := .awake }, none)
    else none
  | .handleError, .awake =>
    if s.error then some ({ sendAgain s with error := false, phase := .looking }, none)
    else some ({ s with phase := .looking }, none)
  | .look received, .looking =>
    if atddClientHasData s received then some ({ s with phase := .finishing none }, none)
    else some ({ s with phase := .ready }, none)
  | .fetch cmdR, .finishing rq =>
    if s.pendingAcceptedPos ≠ s.pendingCompletedPos ∧ cmdR.ident ∈ s.inFlight then
      some (finishCompletedRequest
        { s with
          pendingCompletedPos := s.pendingCompletedPos + 1
          inFlight := s.inFlight.erase cmdR.ident } cmdR rq, none)
    else none
  | .fetchNone, .finishing _ =>
    if s.pendingAcceptedPos = s.pendingCompletedPos then some ({ s with phase := .ready }, none) else none
  | .fetchError, .finishing _ =>
    if s.pendingAcceptedPos ≠ s.pendingCompletedPos then some ({ sendAgain s with phase := .ready }, none) else none
  | .startSend, .ready => some ({ s with phase := .sending (atddCmdsToSend s) }, none)
  | .send outcome, .sending (cmdsToSend + 1) => (sendAcceptedRequest s cmdsToSend outcome).map fun s => (s, none)
  | .endSend, .sending 0 => some ({ s with phase := .waiting }, none)
  | _, _ => none

/-- Everything a step can do. -/
inductive Stepped (s : Relay) : Event → Relay → Prop
  | refused (rq : Request) (hfull : (s.bufAcceptedPos.toNat : ℤ) - s.bufCompletedPos.toNat = 255) :
      Stepped s (.submit rq) s
  | submitted (rq : Request) (hroom : ¬ (s.bufAcceptedPos.toNat : ℤ) - s.bufCompletedPos.toNat = 255) :
      Stepped s (.submit rq)
        { s with
          requestsBuf := Function.update s.requestsBuf s.bufAcceptedPos
            ⟨s.requestIdentCounter, some ⟨s.submitted, rq⟩⟩
          bufAcceptedPos := s.bufAcceptedPos + 1
          requestIdentCounter := s.requestIdentCounter + atddThreadsCount
          submitted := s.submitted + 1 }
  | connectionError : Stepped s .connectionError { s with error := true }
  | lose (ident : UInt64) : Stepped s (.lose ident) { s with inFlight := s.inFlight.erase ident }
  | wake (received : Bool) : Stepped s (.wake received) { s with phase := .awake }
  | error (herror : s.error = true) :
      Stepped s .handleError { sendAgain s with error := false, phase := .looking }
  | noError : Stepped s .handleError { s with phase := .looking }
  | data (received : Bool) : Stepped s (.look received) { s with phase := .finishing none }
  | noData (received : Bool) : Stepped s (.look received) { s with phase := .ready }
  | fetch (cmdR : AtddCmdReturn) (rq : Option BlkRequest) (hphase : s.phase = .finishing rq)
      (hmem : cmdR.ident ∈ s.inFlight) :
      Stepped s (.fetch cmdR) (finishCompletedRequest
        { s with
          pendingCompletedPos := s.pendingCompletedPos + 1
          inFlight := s.inFlight.erase cmdR.ident } cmdR rq)
  | fetchNone : Stepped s .fetchNone { s with phase := .ready }
  | fetchError : Stepped s .fetchError { sendAgain s with phase := .ready }
  | startSend : Stepped s .startSend { s with phase := .sending (atddCmdsToSend s) }
  | send (outcome : SendOutcome) (cmdsToSend : ℕ) (s' : Relay) (hphase : s.phase = .sending (cmdsToSend + 1))
      (hsend : sendAcceptedRequest s cmdsToSend outcome = some s') : Stepped s (.send outcome) s'
  | endSend : Stepped s .endSend { s with phase := .waiting }

theorem step_stepped {s s' : Relay} {e : Event} {o : Option SubmitResult} (h : step s e = some (s', o)) :
    Stepped s e s' := by
  unfold step at h
  split at h
  · rw [Option.some_inj, Prod.mk.injEq] at h
    rw [← h.1, submitAtddRequest]
    split
    · exact .refused _ ‹_›
    · exact .submitted _ ‹_›
  · cases h
    exact .connectionError
  · split at h
    · cases h
      exact .lose _
    · cases h
  · split at h
    · cases h
      exact .wake _
    · cases h
  · split at h
    · cases h
      exact .error ‹_›
    · cases h
      exact .noError
  · split at h
    · cases h
      exact .data _
    · cases h
      exact .noData _
  · rename_i cmdR rq hphase
    split at h
    · rename_i hguard
      cases h
      exact .fetch cmdR rq hphase hguard.2
    · cases h
  · split at h
    · cases h
      exact .fetchNone
    · cases h
  · split at h
    · cases h
      exact .fetchError
    · cases h
  · cases h
    exact .startSend
  · rename_i outcome cmdsToSend hphase
    obtain ⟨s₁, hsend, heq⟩ := Option.map_eq_some_iff.mp h
    cases heq
    exact .send outcome cmdsToSend _ hphase hsend
  · cases h
    exact .endSend
  · cases h

end AtomicDisk.Driver
