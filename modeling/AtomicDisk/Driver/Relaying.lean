import AtomicDisk.Driver.RingOrder
import Mathlib.Data.Nat.ModEq

/-! What a relay guarantees over whole runs: its ring has a slot for every request that has not been completed
    (`ring_inOrder`), and every request is ended once, however often commands are sent again
    (`resent_endedOnce`). Both need care at one place, where the driver has none:

        submit     accepted + 1 = completed ≠ 0:  the ring is full, but the difference of the positions, as
                   `int`s, is -1 and not 255
        an error   commands are sent again although the responses to the first sending still come

    The steps that fetch are those of the client's `atdd_fetch_command` (`fetch_step`), and an identifier is
    not given again before `2 ^ 63` submissions (`fresh_of_few`). -/

namespace AtomicDisk.Driver
open Schemes Ring

variable {s s' : Relay} {e : Event} {id : UInt64} {memory : BitVec 8 → UInt64}
  {tr : List (Entry Relay Event (Option SubmitResult))}

/-! ### The client of a relay -/

/-- What reading leaves as it is: the positions of the commands that are pending, the key and the send buffer. -/
structure ReadsOnly (c c' : AtddTcpClient) : Prop where
  accepted : c'.acceptedPos = c.acceptedPos
  completed : c'.completedPos = c.completedPos
  key : c'.hmacKey = c.hmacKey
  sendBuf : c'.sendBuf = c.sendBuf

theorem ReadsOnly.trans {c₁ c₂ c₃ : AtddTcpClient} (h : ReadsOnly c₁ c₂) (h' : ReadsOnly c₂ c₃) : ReadsOnly c₁ c₃ :=
  ⟨h'.accepted.trans h.accepted, h'.completed.trans h.completed, h'.key.trans h.key, h'.sendBuf.trans h.sendBuf⟩

/-- What `atdd_fetch_command` returns, with the client it leaves. -/
inductive Fetched (c : AtddTcpClient) : Except Errno (Option AtddCmdReturn) → AtddTcpClient → Prop
  | none (hnone : c.acceptedPos = c.completedPos) : Fetched c (.ok none) c
  | error (err : Errno) (c' : AtddTcpClient) (hsome : c.acceptedPos ≠ c.completedPos) (hreads : ReadsOnly c c') :
      Fetched c (.error err) c'
  | response (cmdR : AtddCmdReturn) (c' : AtddTcpClient) (hsome : c.acceptedPos ≠ c.completedPos)
      (hreads : ReadsOnly { c with completedPos := c.completedPos + 1 } c') : Fetched c (.ok (some cmdR)) c'

section reading

variable {c c' : AtddTcpClient} {limit : ℕ} {res : Except Errno Unit}

theorem progressTcpDataToLimit_reads (h : progressTcpDataToLimit c limit = some (res, c')) : ReadsOnly c c' := by
  obtain ⟨⟨res', parseBuf, sock⟩, -, h⟩ := Option.bind_eq_some_iff.mp h
  cases res' with
  | error err =>
    cases h
    exact ⟨rfl, rfl, rfl, rfl⟩
  | ok _ =>
    cases h
    exact ⟨rfl, rfl, rfl, rfl⟩

theorem progressToHeader_reads (h : progressToHeader c limit = some (res, c')) : ReadsOnly c c' := by
  unfold progressToHeader at h
  split at h
  · obtain ⟨⟨res', c₁⟩, hread, h⟩ := Option.bind_eq_some_iff.mp h
    have hreads := progressTcpDataToLimit_reads hread
    cases res' with
    | error err =>
      cases h
      exact hreads
    | ok _ =>
      obtain ⟨c₂, hslide, heq⟩ := Option.map_eq_some_iff.mp h
      unfold slideToAtddMagic at hslide
      split at hslide
      · cases hslide
      · cases hslide
        cases heq
        exact hreads
  · cases h
    exact ⟨rfl, rfl, rfl, rfl⟩

/-- Once the rest has been read, the response is complete. -/
theorem progressBehindHeader_reads (h : progressBehindHeader c limit = some (res, c')) :
    ReadsOnly c c' ∧ (res = .ok () → c'.parseState.completed = true) := by
  simp only [progressBehindHeader, Option.bind_eq_bind, Option.bind_eq_some_iff] at h
  obtain ⟨ident, -, type, -, ⟨res', c₁⟩, hread, h⟩ := h
  obtain ⟨haccepted, hcompleted, hkey, hbuf⟩ := progressTcpDataToLimit_reads hread
  cases res' with
  | error err =>
    cases h
    exact ⟨⟨haccepted, hcompleted, hkey, hbuf⟩, by simp⟩
  | ok _ =>
    cases h
    exact ⟨⟨haccepted, hcompleted, hkey, hbuf⟩, fun _ => rfl⟩

theorem progressTcpData_reads (h : progressTcpData c = some (res, c')) :
    ReadsOnly c c' ∧ (res = .ok () → c'.parseState.completed = true) := by
  obtain ⟨⟨res', c₁⟩, hread, h⟩ := Option.bind_eq_some_iff.mp h
  have hreads := progressToHeader_reads hread
  cases res' with
  | error err =>
    cases h
    exact ⟨hreads, by simp⟩
  | ok _ =>
    dsimp only at h
    split at h
    · simp only [Option.bind_eq_bind, Option.bind_eq_some_iff] at h
      obtain ⟨status, -, h⟩ := h
      cases hst : parseStatusCode status with
      | error err =>
        rw [hst] at h
        cases h
        exact ⟨hreads.trans ⟨rfl, rfl, rfl, rfl⟩, by simp⟩
      | ok st =>
        rw [hst] at h
        obtain ⟨⟨haccepted, hcompleted, hkey, hbuf⟩, hdone⟩ := progressBehindHeader_reads h
        exact ⟨hreads.trans ⟨haccepted, hcompleted, hkey, hbuf⟩, hdone⟩
    · obtain ⟨hreads', hdone⟩ := progressBehindHeader_reads h
      exact ⟨hreads.trans hreads', hdone⟩

/-- What `atdd_fetch_command` does to the client. -/
theorem atddFetchCommand_fetched {h : Transfer.Hmac} {res : Except Errno (Option AtddCmdReturn)}
    (hfetch : atddFetchCommand h c = some (res, c')) : Fetched c res c' := by
  unfold atddFetchCommand at hfetch
  split at hfetch
  · rename_i hnone
    cases hfetch
    exact .none hnone
  · rename_i hsome
    simp only [Option.bind_eq_bind, Option.bind_eq_some_iff] at hfetch
    obtain ⟨⟨res₁, c₁⟩, hprogress, hfetch⟩ := hfetch
    obtain ⟨hreads, hdone⟩ := progressTcpData_reads hprogress
    cases res₁ with
    | error err =>
      cases hfetch
      exact .error err c₁ hsome hreads
    | ok _ =>
      rw [hdone rfl] at hfetch
      simp only [Bool.true_eq_false, if_false, Option.bind_eq_some_iff] at hfetch
      obtain ⟨valid, -, hfetch⟩ := hfetch
      cases valid with
      | error err =>
        cases hfetch
        exact .error err _ hsome (hreads.trans ⟨rfl, rfl, rfl, rfl⟩)
      | ok _ =>
        simp only [Option.bind_eq_some_iff] at hfetch
        obtain ⟨data, -, hfetch⟩ := hfetch
        cases hfetch
        exact .response _ _ hsome ⟨hreads.accepted, by rw [hreads.completed], hreads.key, hreads.sendBuf⟩

end reading

/-- The relay's view of the client: it has the client's positions of the commands that are pending. -/
def Mirrors (s : Relay) (c : AtddTcpClient) : Prop :=
  s.pendingAcceptedPos = c.acceptedPos ∧ s.pendingCompletedPos = c.completedPos

/-- The event that a result of `atdd_fetch_command` is for the relay. -/
def fetchEvent : Except Errno (Option AtddCmdReturn) → Event
  | .error _ => .fetchError
  | .ok none => .fetchNone
  | .ok (some cmdR) => .fetch cmdR

/-- Whatever `atdd_fetch_command` returns is a step of the relay, as long as responses are to commands that were
    sent, and the relay goes on with the client it leaves. -/
theorem fetch_step {h : Transfer.Hmac} {c c' : AtddTcpClient} {res : Except Errno (Option AtddCmdReturn)}
    (hfetch : atddFetchCommand h c = some (res, c')) (hmirrors : Mirrors s c) {rq : Option BlkRequest}
    (hphase : s.phase = .finishing rq) (hsent : ∀ cmdR, res = .ok (some cmdR) → cmdR.ident ∈ s.inFlight) :
    ∃ s', step s (fetchEvent res) = some (s', none) ∧ Mirrors s' c' := by
  obtain ⟨haccepted, hcompleted⟩ := hmirrors
  cases atddFetchCommand_fetched hfetch with
  | none hnone =>
    refine ⟨{ s with phase := .ready }, ?_, haccepted, hcompleted⟩
    simp only [fetchEvent, step, hphase, haccepted, hcompleted, hnone, if_true]
  | error err _ hsome hreads =>
    refine ⟨{ sendAgain s with phase := .ready }, ?_, haccepted.trans hreads.accepted.symm,
      hcompleted.trans hreads.completed.symm⟩
    simp only [fetchEvent, step, hphase, haccepted, hcompleted]
    exact if_pos hsome
  | response cmdR _ hsome hreads =>
    have hguard : s.pendingAcceptedPos ≠ s.pendingCompletedPos ∧ cmdR.ident ∈ s.inFlight := by
      rw [haccepted, hcompleted]
      exact ⟨hsome, hsent cmdR rfl⟩
    let s₁ : Relay :=
      { s with
        pendingCompletedPos := s.pendingCompletedPos + 1
        inFlight := s.inFlight.erase cmdR.ident }
    have hstep : step s (.fetch cmdR) = some (finishCompletedRequest s₁ cmdR rq, none) := by
      cases s
      cases hphase
      exact if_pos hguard
    have hfinished := finishCompletedRequest_finished s₁ cmdR rq
    refine ⟨_, hstep, hfinished.pendingAccepted.trans (haccepted.trans hreads.accepted.symm),
      hfinished.pendingCompleted.trans ?_⟩
    rw [hreads.completed, ← hcompleted]

/-! ### Identifiers -/

/-- Identifiers count the submissions. -/
structure Numbered (id : UInt64) (buf : BitVec 8 → AtddRequest) (counter : UInt64) (submitted : ℕ) : Prop where
  next : counter = id + atddThreadsCount * UInt64.ofNat submitted
  slots : ∀ p rq, (buf p).content = some rq → rq.serial < submitted ∧
    (buf p).ident = id + atddThreadsCount * UInt64.ofNat rq.serial

/-- Up to `2 ^ 63` submissions have different identifiers. -/
theorem ident_inj {x y : ℕ} (hx : x < 2 ^ 63) (hy : y < 2 ^ 63)
    (h : id + atddThreadsCount * UInt64.ofNat x = id + atddThreadsCount * UInt64.ofNat y) : x = y := by
  have hsize : 2 ^ 63 < UInt64.size := by decide
  have hmul := congrArg UInt64.toNat ((UInt64.add_right_inj id).mp h)
  rw [UInt64.toNat_mul, UInt64.toNat_mul, UInt64.toNat_ofNat_of_lt' (hx.trans hsize),
    UInt64.toNat_ofNat_of_lt' (hy.trans hsize)] at hmul
  have hmod : 10 * x ≡ 10 * y [MOD 2 ^ 64] := hmul
  -- two is the common divisor of ten and 2 ^ 64
  have hhalf : x ≡ y [MOD 2 ^ 64 / Nat.gcd (2 ^ 64) 10] := hmod.cancel_left_div_gcd (by decide)
  have hgcd : 2 ^ 64 / Nat.gcd (2 ^ 64) 10 = 2 ^ 63 := by decide
  rw [hgcd] at hhalf
  exact hhalf.eq_of_lt_of_lt hx hy

/-- Sending leaves the ring. -/
theorem sendAcceptedRequest_ring {cmdsToSend : ℕ} {outcome : SendOutcome}
    (h : sendAcceptedRequest s cmdsToSend outcome = some s') : s'.requestsBuf = s.requestsBuf ∧
      s'.requestIdentCounter = s.requestIdentCounter ∧ s'.submitted = s.submitted := by
  unfold sendAcceptedRequest at h
  dsimp only at h
  split at h
  · cases h
    exact ⟨rfl, rfl, rfl⟩
  · cases h
    exact ⟨rfl, rfl, rfl⟩
  · cases h
    exact ⟨rfl, rfl, rfl⟩
  · split at h
    · cases h
    · cases h
      exact ⟨rfl, rfl, rfl⟩
  · cases h
    exact ⟨rfl, rfl, rfl⟩

theorem Numbered.submit {buf : BitVec 8 → AtddRequest} {counter : UInt64} {submitted : ℕ}
    (h : Numbered id buf counter submitted) (p : BitVec 8) (rq : Request) :
    Numbered id (Function.update buf p ⟨counter, some ⟨submitted, rq⟩⟩) (counter + atddThreadsCount)
      (submitted + 1) := by
  refine ⟨?_, fun q rq' hq => ?_⟩
  · rw [h.next, UInt64.ofNat_add, UInt64.mul_add, UInt64.add_assoc]
    rfl
  · by_cases hqp : q = p
    · rw [hqp, Function.update_self] at hq ⊢
      obtain rfl := Option.some.inj hq
      exact ⟨Nat.lt_succ_self _, h.next⟩
    · rw [Function.update_of_ne hqp] at hq ⊢
      exact ⟨(h.slots q rq' hq).1.trans (Nat.lt_succ_self _), (h.slots q rq' hq).2⟩

/-- Slots change places. -/
theorem Numbered.swapOut {buf : BitVec 8 → AtddRequest} {counter : UInt64} {submitted : ℕ}
    (h : Numbered id buf counter submitted) (completed p : BitVec 8) :
    Numbered id (swapOut buf completed p) counter submitted := by
  refine ⟨h.next, fun q rq hq => ?_⟩
  rw [swapOut_eq_swap] at hq ⊢
  exact h.slots _ rq hq

theorem Stepped.numbered (hs : Stepped s e s')
    (h : Numbered id s.requestsBuf s.requestIdentCounter s.submitted) :
    Numbered id s'.requestsBuf s'.requestIdentCounter s'.submitted := by
  cases hs with
  | submitted rq hroom => exact h.submit s.bufAcceptedPos rq
  | fetch cmdR rq hphase hmem =>
    have hfinished := finishCompletedRequest_finished
      { s with
        pendingCompletedPos := s.pendingCompletedPos + 1
        inFlight := s.inFlight.erase cmdR.ident } cmdR rq
    rw [hfinished.counter, hfinished.submitted]
    rcases hfinished.ring with hring | ⟨rqPos, hring⟩
    · rw [hring]
      exact h
    · rw [hring]
      exact h.swapOut s.bufCompletedPos rqPos
  | send outcome cmdsToSend s' hphase hsend =>
    obtain ⟨h₁, h₂, h₃⟩ := sendAcceptedRequest_ring hsend
    rw [h₁, h₂, h₃]
    exact h
  | _ => exact h

/-- The next identifier is not in the ring. -/
theorem Numbered.fresh (h : Numbered id s.requestsBuf s.requestIdentCounter s.submitted)
    (hfew : s.submitted < 2 ^ 63) : Fresh s := by
  intro p hp heq
  obtain ⟨rq, hrq⟩ := Option.isSome_iff_exists.mp hp
  obtain ⟨hlt, hident⟩ := h.slots p rq hrq
  rw [hident, h.next] at heq
  have hsame := ident_inj (hlt.trans hfew) hfew heq
  omega

/-- An identifier comes again only after `2 ^ 63` submissions, whatever else happens. -/
theorem fresh_of_few {P : Relay → Event → Prop} (h : Run step P (.create id memory) tr s)
    (hfew : s.submitted < 2 ^ 63) : Fresh s := by
  have hnumbered : Numbered id s.requestsBuf s.requestIdentCounter s.submitted := by
    refine h.invariant (I := fun _ s => Numbered id s.requestsBuf s.requestIdentCounter s.submitted)
      ⟨by simp [Relay.create], by simp [Relay.create]⟩ ?_
    intro tr x _ hI _ hs
    exact (step_stepped hs).numbered hI
  exact hnumbered.fresh hfew

/-! ### No live request is overwritten -/

/-- The event is an error of the connection, of fetching or of sending. -/
def Event.isError : Event → Bool
  | .connectionError => true
  | .fetchError => true
  | .send outcome => outcome != .sent
  | _ => false

/-- Without such events the client's error flag is never set. -/
theorem Stepped.error_false (hs : Stepped s e s') (he : e.isError = false) (herror : s.error = false) :
    s'.error = false := by
  cases hs with
  | connectionError => cases he
  | send outcome cmdsToSend s' hphase hsend =>
    cases outcome with
    | sent =>
      cases hcontent : (s.requestsBuf s.bufTcpForwardedPos).content with
      | none =>
        simp only [sendAcceptedRequest, hcontent, Option.some_inj] at hsend
        rw [← hsend]
        exact herror
      | some rq =>
        simp only [sendAcceptedRequest, hcontent, Option.some_inj] at hsend
        rw [← hsend]
        simp [connect, herror]
    | unprepared => cases he
    | unconnected => cases he
    | broken => cases he
  | fetch cmdR rq hphase hmem => exact (finishCompletedRequest_finished _ cmdR rq).error.trans herror
  | error h => rfl
  | fetchError => cases he
  | refused rq h => exact herror
  | submitted rq h => exact herror
  | lose ident => exact herror
  | wake received => exact herror
  | noError => exact herror
  | data received => exact herror
  | noData received => exact herror
  | fetchNone => exact herror
  | startSend => exact herror
  | endSend => exact herror

/-- Nor is anything sent again. -/
theorem resends_false (he : e.isError = false) (herror : s.error = false) : resends s e = false := by
  cases e with
  | handleError => exact herror
  | fetchError => cases he
  | send outcome =>
    cases outcome with
    | unprepared => cases he
    | _ => rfl
  | _ => rfl

/-- At most 255 requests are not completed, the positions count them and are in order, and the slot of the next
    submission holds none of them. -/
structure InOrder (s : Relay) : Prop where
  few : (uncompleted s.submitted (endedSerials s)).length ≤ 255
  count : (uncompleted s.submitted (endedSerials s)).length = (s.bufAcceptedPos - s.bufCompletedPos).toNat
  order : (s.bufTcpForwardedPos - s.bufCompletedPos).toNat ≤ (s.bufAcceptedPos - s.bufCompletedPos).toNat
  spare : ∀ rq, (s.requestsBuf s.bufAcceptedPos).content = some rq →
    rq.serial ∉ uncompleted s.submitted (endedSerials s)

theorem Sound.inOrder (h : Sound s) : InOrder s := by
  have hcount := h.ring.count
  refine ⟨?_, hcount, h.ring.order, fun rq hrq hmem => ?_⟩
  · have hlt := gap_lt s.bufCompletedPos s.bufAcceptedPos
    omega
  · have hended := h.ring.stale s.bufAcceptedPos rq hrq le_rfl
    simp [uncompleted, hended] at hmem

/-- CORRECT (the ring): in every run without errors in which no submission comes when 255 requests are there
    and completed is not 0, nor gets an identifier that is still in the ring, the ring is in order in every
    state reached. -/
theorem ring_inOrder (h : Run step (fun s e => e.isError = false ∧ (e.isSubmit → Spare s ∧ Fresh s))
    (.create id memory) tr s) : InOrder s := by
  have hinv : Sound s ∧ s.error = false := by
    refine h.invariant (I := fun _ s => Sound s ∧ s.error = false) ⟨.create id memory, rfl⟩ ?_
    intro tr x _ hI hP hs
    have hstepped := step_stepped hs
    refine ⟨hstepped.sound hI.1 ⟨hP.2, fun hresends => ?_⟩, hstepped.error_false hP.1 hI.2⟩
    rw [resends_false hP.1 hI.2] at hresends
    cases hresends
  exact hinv.1.inOrder

section run

/-- A read of sector 0. -/
def readRequest : Request := ⟨false, 0, ⟨List.replicate sectorSize 0, List.length_replicate⟩⟩

/-- One request is submitted, sent and answered. -/
def oneRequest : List Event :=
  [.submit readRequest, .wake false, .handleError, .look false, .startSend, .send .sent, .endSend, .wake true,
    .handleError, .look true, .fetch ⟨0, [], .ok⟩, .fetchNone, .startSend, .endSend]

instance : Decidable (Spare s) := inferInstanceAs (Decidable (_ → _))

instance : Decidable (Fresh s) := inferInstanceAs (Decidable (∀ _ : BitVec 8, _ → _ ≠ _))

/-- Behind a request that has been ended, 255 more fill the ring, and accepted comes back to 0. -/
theorem fullRing_inOrder : ∃ tr s, Run step (fun s e => e.isError = false ∧ (e.isSubmit → Spare s ∧ Fresh s))
    (.create 0 fun _ => 0) tr s ∧ InOrder s ∧ s.submitted = 256 ∧ endedSerials s = [0] ∧ s.bufAcceptedPos = 0 ∧
      s.bufCompletedPos = 1 := by
  have hrun := Run.exists_of_exec step
    (fun s e => (e.isError = false ∧ s.submitted < 2 ^ 63) ∧ (e.isSubmit → Spare s)) (.create 0 fun _ => 0)
    (oneRequest ++ List.replicate 255 (.submit readRequest))
    (fun _ s => s.submitted = 256 ∧ endedSerials s = [0] ∧ s.bufAcceptedPos = 0 ∧ s.bufCompletedPos = 1)
    (by decide +kernel)
  obtain ⟨tr, s, h, hobs⟩ := hrun
  -- so few identifiers are all different
  have hfresh : Run step (fun s e => e.isError = false ∧ (e.isSubmit → Spare s ∧ Fresh s)) (.create 0 fun _ => 0)
      tr s := by
    refine h.imp fun tr s e hr hP => ⟨hP.1.1, fun he => ⟨hP.2 he, ?_⟩⟩
    exact fresh_of_few hr hP.1.2
  exact ⟨tr, s, hfresh, ring_inOrder hfresh, of_decide_eq_true hobs⟩

/-- After one request has been ended, 256 more are accepted, and the ring looks empty. -/
theorem ring_overfull : ∃ tr s, Run step (fun _ e => e.isError = false) (.create 0 fun _ => 0) tr s ∧
    (uncompleted s.submitted (endedSerials s)).length = 256 ∧ s.bufAcceptedPos = s.bufCompletedPos ∧
      ¬ InOrder s := by
  have hrun := Run.exists_of_exec step (fun _ e => e.isError = false) (.create 0 fun _ => 0)
    (oneRequest ++ List.replicate 256 (.submit readRequest))
    (fun _ s => (uncompleted s.submitted (endedSerials s)).length = 256 ∧ s.bufAcceptedPos = s.bufCompletedPos)
    (by decide +kernel)
  obtain ⟨tr, s, h, hobs⟩ := hrun
  obtain ⟨hmany, hpos⟩ := of_decide_eq_true hobs
  refine ⟨tr, s, h, hmany, hpos, fun hin => ?_⟩
  have hfew := hin.few
  rw [hmany] at hfew
  exact absurd hfew (by decide)

end run

/-! ### Every request is ended once -/

/-- Every request is ended at most once, the positions are in order, and the requests that have not been ended
    are in the slots from completed to accepted. -/
structure EndedOnce (s : Relay) : Prop where
  once : (endedSerials s).Nodup
  order : (s.bufTcpForwardedPos - s.bufCompletedPos).toNat ≤ (s.bufAcceptedPos - s.bufCompletedPos).toNat
  kept : ∀ x ∈ uncompleted s.submitted (endedSerials s),
    ∃ k < (s.bufAcceptedPos - s.bufCompletedPos).toNat, ∃ rq,
      (s.requestsBuf (s.bufCompletedPos + BitVec.ofNat 8 k)).content = some rq ∧ rq.serial = x

theorem Sound.endedOnce (h : Sound s) : EndedOnce s := by
  refine ⟨h.ring.once, h.ring.order, fun x hx => ?_⟩
  have hmem := h.ring.live.symm.subset (List.mem_map_of_mem hx)
  obtain ⟨r, hr, hserial⟩ := List.mem_map.mp hmem
  obtain ⟨k, hk, rfl⟩ := mem_window.mp hr
  obtain ⟨rq, hrq, heq⟩ := Option.map_eq_some_iff.mp hserial
  exact ⟨k, hk, rq, hrq, heq⟩

/-- A submission leaves fewer than 255 requests outstanding. -/
def Moderate (s : Relay) (e : Event) : Prop :=
  e.isSubmit → (uncompleted s.submitted (endedSerials s)).length + 1 < 255

/-- With fewer than 255 requests outstanding the ring is not full. -/
theorem Sound.spare (h : Sound s) (hfew : (uncompleted s.submitted (endedSerials s)).length + 1 < 255) :
    Spare s := by
  intro hfull
  rw [h.ring.count] at hfew
  have hslot : slot s.bufCompletedPos (gap s.bufCompletedPos s.bufAcceptedPos + 1) = slot s.bufCompletedPos 0 := by
    rw [← slot_add_one, slot_gap, hfull, slot_zero]
  have hzero := slot_inj (by omega) (by omega) hslot
  omega

/-- CORRECT (sending again): in every run with fewer than 255 requests outstanding, with errors at any time, in
    which no response is still to come when everything is sent again, and no submission gets an identifier that
    is still in the ring, every request is ended at most once and none is lost, in every state reached. -/
theorem resent_endedOnce (h : Run step (fun s e => Moderate s e ∧ Settled s e ∧ (e.isSubmit → Fresh s))
    (.create id memory) tr s) : EndedOnce s := by
  refine Sound.endedOnce (h.invariant (I := fun _ s => Sound s) (.create id memory) ?_)
  intro tr x _ hI hP hs
  obtain ⟨hfew, hsettled, hfresh⟩ := hP
  exact (step_stepped hs).sound hI ⟨fun he => ⟨hI.spare (hfew he), hfresh he⟩, hsettled⟩

section run

instance : Decidable (Moderate s e) := inferInstanceAs (Decidable (_ → _))

instance : Decidable (Settled s e) := inferInstanceAs (Decidable (_ → _))

/-- A request is sent, and fetching its response fails. -/
def failedFetch : List Event :=
  [.submit readRequest, .wake false, .handleError, .look false, .startSend, .send .sent, .endSend, .wake true,
    .handleError, .look true]

/-- The request is sent again and answered. -/
def sentAgain : List Event :=
  [.fetchError, .startSend, .send .sent, .endSend, .wake true, .handleError, .look true, .fetch ⟨0, [], .ok⟩]

/-- The response that could not be fetched does not come any more. -/
theorem sentAgain_endedOnce : ∃ tr s,
    Run step (fun s e => Moderate s e ∧ Settled s e ∧ (e.isSubmit → Fresh s)) (.create 0 fun _ => 0) tr s ∧
      EndedOnce s ∧ endedSerials s = [0] := by
  have hrun := Run.exists_of_exec step (fun s e => Moderate s e ∧ Settled s e ∧ (e.isSubmit → Fresh s))
    (.create 0 fun _ => 0) (failedFetch ++ [.lose 0] ++ sentAgain) (fun _ s => endedSerials s = [0])
    (by decide +kernel)
  obtain ⟨tr, s, h, hobs⟩ := hrun
  exact ⟨tr, s, h, resent_endedOnce h, of_decide_eq_true hobs⟩

/-- Both responses come, and the request is ended twice. -/
theorem sentAgain_endedTwice : ∃ tr s, Run step Moderate (.create 0 fun _ => 0) tr s ∧
    endedSerials s = [0, 0] ∧ ¬ EndedOnce s := by
  have hrun := Run.exists_of_exec step Moderate (.create 0 fun _ => 0)
    (failedFetch ++ sentAgain ++ [.fetch ⟨0, [], .ok⟩]) (fun _ s => endedSerials s = [0, 0]) (by decide +kernel)
  obtain ⟨tr, s, h, hobs⟩ := hrun
  have hended : endedSerials s = [0, 0] := of_decide_eq_true hobs
  refine ⟨tr, s, h, hended, fun hin => ?_⟩
  have honce := hin.once
  rw [hended] at honce
  exact absurd honce (by decide)

end run

end AtomicDisk.Driver
