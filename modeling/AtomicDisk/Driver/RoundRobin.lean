import AtomicDisk.Driver.Device

/-! The order in which `atdd_block_request` asks the relays. With every request that is not a passthrough request
    the search begins one relay further, and it goes once around:

        request n       n % 10, (n + 1) % 10, …, (n + 9) % 10      until one accepts it
        request n + 1           (n + 1) % 10, …, (n + 10) % 10

    What the run tells about this is the number of requests that have been dealt with, and the relays that have
    refused the one at hand. A request that is put back into the queue has been dealt with, and is the next one
    when it is fetched again. A relay refuses if its ring is full and its completed position is 0; at other
    positions `submit_atdd_request` does not notice the full ring. -/

namespace AtomicDisk.Driver.Device
open Schemes

variable {d d' : Device} {e : Event} {o : Option SubmitResult} {memory : ThreadId → BitVec 8 → UInt64} {tr : Trace}

/-- The index of a relay, from a count. -/
def thread (n : ℕ) : UInt8 := UInt8.ofNat (n % 10)

theorem thread_toNat (n : ℕ) : (thread n).toNat = n % 10 := by
  rw [thread, UInt8.toNat_ofNat']
  omega

theorem thread_inj {m n : ℕ} : thread m = thread n ↔ m % 10 = n % 10 := by
  rw [← UInt8.toNat_inj, thread_toNat, thread_toNat]

theorem nextThread_thread (n : ℕ) : nextThread (thread n) = thread (n + 1) := by
  have hten : atddThreadsCount.toUInt8.toNat = 10 := rfl
  rw [← UInt8.toNat_inj, nextThread, UInt8.toNat_mod, UInt8.toNat_add, thread_toNat, thread_toNat, hten]
  simp only [UInt8.toNat_one]
  omega

theorem relayAt_thread (n : ℕ) : ∃ i, relayAt (thread n) = some i := by
  have hlt : (thread n).toNat < 10 := by
    rw [thread_toNat]
    omega
  exact ⟨⟨_, hlt⟩, dif_pos hlt⟩

/-- The number of requests that have been dealt with, and the relays that have refused the one at hand. -/
def tally (acc : ℕ × List UInt8) (x : Entry Device Event (Option SubmitResult)) : ℕ × List UInt8 :=
  match x.pre.dispatch, x.post.dispatch with
  | .submitting _ t, .submitting .. => if x.out = some .enospc then (acc.1, acc.2 ++ [t]) else acc
  | .submitting .., _ => (acc.1 + 1, [])
  | _, _ => acc

def dealtWith (tr : Trace) : ℕ := (tr.foldl tally (0, [])).1

def refusals (tr : Trace) : List UInt8 := (tr.foldl tally (0, [])).2

/-- The relays are asked in turn. -/
structure InTurn (acc : ℕ × List UInt8) (d : Device) : Prop where
  start : d.threadRqTarget = thread acc.1
  asked : acc.2 = (List.range acc.2.length).map fun j => thread (acc.1 + j)
  hand : ∀ rq t, d.dispatch = .submitting rq t → t = thread (acc.1 + acc.2.length) ∧ acc.2.length < 10
  free : (∀ rq t, d.dispatch ≠ .submitting rq t) → acc.2 = []

theorem InTurn.keep {acc : ℕ × List UInt8} (h : InTurn acc d) (hstart : d'.threadRqTarget = d.threadRqTarget)
    (hdispatch : d'.dispatch = d.dispatch) : InTurn acc d' := by
  refine ⟨hstart.trans h.start, h.asked, ?_, ?_⟩
  · rw [hdispatch]
    exact h.hand
  · rw [hdispatch]
    exact h.free

/-- The search is over. -/
theorem InTurn.next {acc : ℕ × List UInt8} (h : InTurn acc d)
    (hstart : d'.threadRqTarget = nextThread d.threadRqTarget)
    (hdispatch : ∀ rq t, d'.dispatch ≠ .submitting rq t) : InTurn (acc.1 + 1, []) d' := by
  refine ⟨?_, rfl, fun rq t hhand => absurd hhand (hdispatch rq t), fun _ => rfl⟩
  rw [hstart, h.start, nextThread_thread]

theorem tally_keep {acc : ℕ × List UInt8} {x : Entry Device Event (Option SubmitResult)}
    (hdispatch : x.post.dispatch = x.pre.dispatch) (hout : x.out = none) : tally acc x = acc := by
  rw [tally, hdispatch, hout]
  cases x.pre.dispatch <;> rfl

/-- Outside of the inner loop. -/
theorem InTurn.outside {acc : ℕ × List UInt8} (h : InTurn acc d) (hstart : d'.threadRqTarget = d.threadRqTarget)
    (hpre : ∀ rq t, d.dispatch ≠ .submitting rq t)
    (hpost : ∀ rq t, d'.dispatch = .submitting rq t → t = d.threadRqTarget) :
    InTurn (tally acc ⟨d, e, o, d'⟩) d' := by
  have htally : tally acc ⟨d, e, o, d'⟩ = acc := by
    cases hd : d.dispatch with
    | idle => simp only [tally, hd]
    | fetching => simp only [tally, hd]
    | submitting rq t => exact absurd hd (hpre rq t)
  have hnone := h.free hpre
  rw [htally]
  refine ⟨hstart.trans h.start, h.asked, fun rq t hhand => ?_, fun _ => hnone⟩
  rw [hpost rq t hhand, hnone, h.start]
  exact ⟨rfl, by simp⟩

theorem Stepped.inTurn {acc : ℕ × List UInt8} (hs : Stepped d e d' o) (h : InTurn acc d) :
    InTurn (tally acc ⟨d, e, o, d'⟩) d' := by
  cases hs with
  | arrive passthrough rq =>
    rw [tally_keep rfl rfl]
    exact h.keep rfl rfl
  | call hidle => exact h.outside rfl (by simp [hidle]) (by simp)
  | drained hfetching hqueue => exact h.outside rfl (by simp [hfetching]) (by simp)
  | skips rq queue hfetching hqueue hpass =>
    rw [tally_keep rfl rfl]
    exact h.keep rfl rfl
  | takes rq queue hfetching hqueue hpass =>
    refine h.outside rfl (by simp [hfetching]) fun rq' t ht => ?_
    exact (Dispatch.submitting.inj ht).2.symm
  | gives rq t i relay hhand hi hok =>
    simp only [tally, hhand]
    exact h.next rfl (by simp)
  | requeues rq t i hhand hi hfull hlast =>
    simp only [tally, hhand]
    exact h.next rfl (by simp)
  | refused rq t i hhand hi hfull hmore =>
    obtain ⟨rfl, hlt⟩ := h.hand rq t hhand
    simp only [tally, hhand, if_true]
    refine ⟨h.start, ?_, fun rq' t' hhand' => ⟨?_, ?_⟩, fun hnone => absurd rfl (hnone rq _)⟩
    · rw [List.length_append, List.length_singleton, List.range_succ, List.map_append, ← h.asked]
      rfl
    · rw [← (Dispatch.submitting.inj hhand').2, nextThread_thread, List.length_append]
      rfl
    · -- the tenth relay is the last
      rw [nextThread_thread, h.start, Ne, thread_inj] at hmore
      rw [List.length_append, List.length_singleton]
      omega
  | relay i e relay o hsubmit hstep =>
    rw [tally_keep rfl rfl]
    exact h.keep rfl rfl

theorem inTurn {P : Device → Event → Prop} (h : Run step P (create memory) tr d) :
    InTurn (dealtWith tr, refusals tr) d := by
  refine h.invariant (I := fun tr d => InTurn (tr.foldl tally (0, [])) d) ?_ ?_
  · exact ⟨rfl, rfl, by simp [create], fun _ => rfl⟩
  · intro tr x _ hI _ hs
    rw [List.foldl_concat]
    exact (step_stepped hs).inTurn hI

/-- All relays have been asked after ten. -/
theorem all_asked {n k : ℕ} (hk : k < 10) :
    (∀ i : ThreadId, thread i ∈ (List.range (k + 1)).map fun j => thread (n + j)) ↔ k = 9 := by
  simp only [List.mem_map, List.mem_range, thread_inj]
  constructor
  · intro hall
    -- the relay before the first one
    obtain ⟨j, hj, heq⟩ := hall ⟨(n + 9) % 10, Nat.mod_lt _ (by omega)⟩
    dsimp only at heq
    omega
  · rintro rfl i
    have hi := i.isLt
    refine ⟨(i + 10 - n % 10) % 10, by omega, ?_⟩
    omega

/-- The full ring, as `submit_atdd_request` notices it. -/
def Full (s : Relay) : Prop := (s.bufAcceptedPos.toNat : ℤ) - s.bufCompletedPos.toNat = 255

theorem submit_full {s : Relay} (h : Full s) (rq : Request) : submitAtddRequest s rq = (s, .enospc) := if_pos h

theorem submit_room {s : Relay} (h : ¬ Full s) (rq : Request) : ∃ s', submitAtddRequest s rq = (s', .ok) :=
  ⟨_, if_neg h⟩

/-- What becomes of a request that is offered to relay `i` after `asked`, the relay itself included. -/
structure Offered (asked : List UInt8) (rq : QueuedRequest) (i : ThreadId) (d d' : Device) : Prop where
  /-- the relay takes it -/
  room : ¬ Full (d.relayData i) → d'.given i = d.given i ++ [rq] ∧ d'.dispatch = .fetching
  others : ∀ j ≠ i, d'.given j = d.given j ∧ d'.relayData j = d.relayData j
  /-- it goes back to the front of the queue if every relay has refused it -/
  requeued : Full (d.relayData i) → (∀ j : ThreadId, thread j ∈ asked) →
    d'.queue = rq :: d.queue ∧ d'.dispatch = .idle
  /-- otherwise the next one is asked -/
  goes : Full (d.relayData i) → ¬ (∀ j : ThreadId, thread j ∈ asked) →
    d'.queue = d.queue ∧ ∃ t, d'.dispatch = .submitting rq t ∧ t ∉ asked

/-- A turn of the inner loop, from the relays that have been asked. -/
theorem InTurn.offered {acc : ℕ × List UInt8} (h : InTurn acc d) {rq : QueuedRequest} {t : UInt8}
    (hhand : d.dispatch = .submitting rq t) :
    ∃ i d' o, relayAt t = some i ∧ step d .submit = some (d', o) ∧ Offered (acc.2 ++ [t]) rq i d d' := by
  obtain ⟨rfl, hlt⟩ := h.hand rq t hhand
  obtain ⟨i, hi⟩ := relayAt_thread (acc.1 + acc.2.length)
  have hasked : acc.2 ++ [thread (acc.1 + acc.2.length)] =
      (List.range (acc.2.length + 1)).map fun j => thread (acc.1 + j) := by
    rw [List.range_succ, List.map_append, ← h.asked]
    rfl
  have hoffer : step d .submit = d.offer rq (thread (acc.1 + acc.2.length)) := by simp only [step, hhand]
  rw [hoffer, hasked, offer, hi, Option.bind_eq_bind, Option.bind_some]
  by_cases hfull : Full (d.relayData i)
  · rw [submit_full hfull, nextThread_thread, h.start]
    dsimp only
    by_cases hlast : thread (acc.1 + acc.2.length + 1) = thread acc.1
    · rw [if_pos hlast]
      have hnine : acc.2.length = 9 := by
        rw [thread_inj] at hlast
        omega
      refine ⟨i, _, _, rfl, rfl, fun hroom => absurd hfull hroom, fun j _ => ⟨rfl, rfl⟩, fun _ _ => ⟨rfl, rfl⟩, ?_⟩
      exact fun _ hnot => absurd ((all_asked hlt).mpr hnine) hnot
    · rw [if_neg hlast]
      have hmore : acc.2.length ≠ 9 := by
        rw [thread_inj] at hlast
        omega
      refine ⟨i, _, _, rfl, rfl, fun hroom => absurd hfull hroom, fun j _ => ⟨rfl, rfl⟩, ?_,
        fun _ _ => ⟨rfl, _, rfl, ?_⟩⟩
      · exact fun _ hall => absurd ((all_asked hlt).mp hall) hmore
      · simp only [List.mem_map, List.mem_range, thread_inj, not_exists, not_and]
        intro j hj heq
        omega
  · obtain ⟨relay, hroom⟩ := submit_room hfull rq.rq
    rw [hroom]
    refine ⟨i, _, _, rfl, rfl, fun _ => ⟨Function.update_self .., rfl⟩, fun j hj => ?_, ?_, ?_⟩
    · exact ⟨Function.update_of_ne hj .., Function.update_of_ne hj ..⟩
    · exact fun hyes => absurd hyes hfull
    · exact fun hyes => absurd hyes hfull

/-- CORRECT (the round robin): in every run, a request is offered to the relays in turn, beginning with the relay
    `n % 10` when `n` requests have been dealt with before it, to each relay at most once and to all ten before
    it is put back into the queue. Nothing but the ten relays is accessed. -/
theorem offered_inTurn {P : Device → Event → Prop} (h : Run step P (create memory) tr d) {rq : QueuedRequest}
    {t : UInt8} (hhand : d.dispatch = .submitting rq t) :
    refusals tr = (List.range (refusals tr).length).map (fun j => thread (dealtWith tr + j)) ∧
      t = thread (dealtWith tr + (refusals tr).length) ∧ (refusals tr).length < 10 ∧
      ∃ i d' o, relayAt t = some i ∧ step d .submit = some (d', o) ∧ Offered (refusals tr ++ [t]) rq i d d' := by
  have hturn := inTurn h
  exact ⟨hturn.asked, (hturn.hand rq t hhand).1, (hturn.hand rq t hhand).2, hturn.offered hhand⟩

section run

/-- The thread that the request at hand is offered to. -/
def offeredTo (d : Device) : Option UInt8 :=
  match d.dispatch with
  | .submitting _ t => some t
  | _ => none

theorem offeredTo_eq {t : UInt8} (h : offeredTo d = some t) : ∃ rq, d.dispatch = .submitting rq t := by
  cases hd : d.dispatch with
  | idle => simp [offeredTo, hd] at h
  | fetching => simp [offeredTo, hd] at h
  | submitting rq t' =>
    obtain rfl : t' = t := by simpa [offeredTo, hd] using h
    exact ⟨rq, rfl⟩

/-- Two reads, of which the first has been given to a relay. -/
def secondRead : List Event :=
  [.arrive false readRequest, .arrive false readRequest, .call, .fetch, .submit, .fetch]

/-- The second read is offered to the second relay. -/
theorem secondRead_inTurn : ∃ tr d rq, Run step (fun _ _ => True) (create fun _ _ => 0) tr d ∧
    d.dispatch = .submitting rq 1 ∧ dealtWith tr = 1 ∧
    ∃ i d' o, relayAt 1 = some i ∧ step d .submit = some (d', o) ∧ Offered (refusals tr ++ [1]) rq i d d' := by
  have hrun := Run.exists_of_exec step (fun _ _ => True) (create fun _ _ => 0) secondRead
    (fun tr d => offeredTo d = some 1 ∧ dealtWith tr = 1) (by decide +kernel)
  obtain ⟨tr, d, h, hobs⟩ := hrun
  obtain ⟨hoffered, hdealt⟩ := of_decide_eq_true hobs
  obtain ⟨rq, hhand⟩ := offeredTo_eq hoffered
  obtain ⟨-, -, -, hresult⟩ := offered_inTurn h hhand
  exact ⟨tr, d, rq, h, hhand, hdealt, hresult⟩

end run

end AtomicDisk.Driver.Device
