import AtomicDisk.Driver.Relaying
import Mathlib.Data.List.FinRange

/-! The block device (`struct atdd_dev` of `atomic_disc_driver.c`): a request queue, ten relays, and
    `atdd_block_request` between them. It takes the requests from the queue one by one and offers each to the
    relays in turn, from `thread_rq_target` on, which moves on by one with every request:

        queue ──blk_fetch_request──▶ at hand ──submit_atdd_request──▶ relay t, or t + 1, or t + 2, …
          ▲                            │  │
          └──────blk_requeue_request───┘  └──passthrough──▶ ended with -EIO
                 all ten are full

    The relays go on at any time, also between two offers, and requests arrive at any time. `arrived`, `skipped`
    and `given` are no variables of the driver: they tell what has happened. -/

namespace AtomicDisk.Driver
open Schemes

/-- An index of `relay_data`. -/
abbrev ThreadId := Fin 10

/-- A request in the queue; `num` tells the requests apart. -/
structure QueuedRequest where
  num : ℕ
  /-- `blk_rq_is_passthrough(rq)` -/
  passthrough : Bool
  rq : Request

/-- Where `atdd_block_request` is. -/
inductive Dispatch where
  /-- it is not running -/
  | idle
  /-- before `blk_fetch_request` -/
  | fetching
  /-- in the inner loop, with `rq` and `target_thread` -/
  | submitting (rq : QueuedRequest) (targetThread : UInt8)

structure Device where
  relayData : ThreadId → Relay
  threadRqTarget : UInt8
  queue : List QueuedRequest
  dispatch : Dispatch
  arrived : List QueuedRequest
  /-- the requests that have been ended with `-EIO` without a relay -/
  skipped : List QueuedRequest
  /-- the requests that each relay has accepted -/
  given : ThreadId → List QueuedRequest

namespace Device

/-- `atdd_dev_init`, with what is in the memory of the rings. -/
def create (memory : ThreadId → BitVec 8 → UInt64) : Device where
  relayData i := .create (UInt64.ofNat i) (memory i)
  threadRqTarget := 0
  queue := []
  dispatch := .idle
  arrived := []
  skipped := []
  given _ := []

/-- The relay that `relay_data[t]` is; there are only ten. -/
def relayAt (t : UInt8) : Option ThreadId := if h : t.toNat < 10 then some ⟨t.toNat, h⟩ else none

/-- A `uint8_t` index is moved on, modulo `ATDD_THREADS_COUNT`. -/
def nextThread (t : UInt8) : UInt8 := (t + 1) % atddThreadsCount.toUInt8

inductive Event where
  /-- the block layer has a new request -/
  | arrive (passthrough : Bool) (rq : Request)
  /-- the block layer calls `atdd_block_request` -/
  | call
  /-- the outer loop fetches the next request -/
  | fetch
  /-- the inner loop offers the request to a relay -/
  | submit
  /-- a relay goes on -/
  | relay (i : ThreadId) (e : Driver.Event)

/-- A turn of the inner loop. The relay may accept the request; otherwise the next one is asked, if there is
    one that has not been. -/
def offer (d : Device) (rq : QueuedRequest) (targetThread : UInt8) : Option (Device × Option SubmitResult) := do
  let i ← relayAt targetThread
  match submitAtddRequest (d.relayData i) rq.rq with
  | (relay, .ok) =>
    some ({ d with
      relayData := Function.update d.relayData i relay
      given := Function.update d.given i (d.given i ++ [rq])
      threadRqTarget := nextThread d.threadRqTarget
      dispatch := .fetching }, some .ok)
  | (_, .enospc) =>
    if nextThread targetThread = d.threadRqTarget then
      some ({ d with
        queue := rq :: d.queue
        threadRqTarget := nextThread d.threadRqTarget
        dispatch := .idle }, some .enospc)
    else some ({ d with dispatch := .submitting rq (nextThread targetThread) }, some .enospc)

/-- `atdd_block_request` turn by turn, and what can happen meanwhile. -/
def step (d : Device) (e : Event) : Option (Device × Option SubmitResult) :=
  match e, d.dispatch with
  | .arrive passthrough rq, _ =>
    let rq : QueuedRequest := ⟨d.arrived.length, passthrough, rq⟩
    some ({ d with queue := d.queue ++ [rq], arrived := d.arrived ++ [rq] }, none)
  | .call, .idle => some ({ d with dispatch := .fetching }, none)
  | .fetch, .fetching =>
    match d.queue with
    | [] => some ({ d with dispatch := .idle }, none)
    | rq :: queue =>
      if rq.passthrough then some ({ d with queue, skipped := d.skipped ++ [rq] }, none)
      else some ({ d with queue, dispatch := .submitting rq d.threadRqTarget }, none)
  | .submit, .submitting rq targetThread => d.offer rq targetThread
  | .relay i e, _ =>
    if e.isSubmit then none
    else (Driver.step (d.relayData i) e).map fun (relay, _) =>
      ({ d with relayData := Function.update d.relayData i relay }, none)
  | _, _ => none

abbrev Trace := List (Entry Device Event (Option SubmitResult))

/-- Everything a step can do. -/
inductive Stepped (d : Device) : Event → Device → Option SubmitResult → Prop
  | arrive (passthrough : Bool) (rq : Request) :
      Stepped d (.arrive passthrough rq)
        { d with
          queue := d.queue ++ [⟨d.arrived.length, passthrough, rq⟩]
          arrived := d.arrived ++ [⟨d.arrived.length, passthrough, rq⟩] } none
  | call (hidle : d.dispatch = .idle) : Stepped d .call { d with dispatch := .fetching } none
  | drained (hfetching : d.dispatch = .fetching) (hqueue : d.queue = []) :
      Stepped d .fetch { d with dispatch := .idle } none
  | skips (rq : QueuedRequest) (queue : List QueuedRequest) (hfetching : d.dispatch = .fetching)
      (hqueue : d.queue = rq :: queue) (hpass : rq.passthrough = true) :
      Stepped d .fetch { d with queue, skipped := d.skipped ++ [rq] } none
  | takes (rq : QueuedRequest) (queue : List QueuedRequest) (hfetching : d.dispatch = .fetching)
      (hqueue : d.queue = rq :: queue) (hpass : rq.passthrough = false) :
      Stepped d .fetch { d with queue, dispatch := .submitting rq d.threadRqTarget } none
  | gives (rq : QueuedRequest) (t : UInt8) (i : ThreadId) (relay : Relay)
      (hhand : d.dispatch = .submitting rq t) (hi : relayAt t = some i)
      (hok : submitAtddRequest (d.relayData i) rq.rq = (relay, .ok)) :
      Stepped d .submit
        { d with
          relayData := Function.update d.relayData i relay
          given := Function.update d.given i (d.given i ++ [rq])
          threadRqTarget := nextThread d.threadRqTarget
          dispatch := .fetching } (some .ok)
  | requeues (rq : QueuedRequest) (t : UInt8) (i : ThreadId) (hhand : d.dispatch = .submitting rq t)
      (hi : relayAt t = some i) (hfull : (submitAtddRequest (d.relayData i) rq.rq).2 = .enospc)
      (hlast : nextThread t = d.threadRqTarget) :
      Stepped d .submit
        { d with
          queue := rq :: d.queue
          threadRqTarget := nextThread d.threadRqTarget
          dispatch := .idle } (some .enospc)
  | refused (rq : QueuedRequest) (t : UInt8) (i : ThreadId) (hhand : d.dispatch = .submitting rq t)
      (hi : relayAt t = some i) (hfull : (submitAtddRequest (d.relayData i) rq.rq).2 = .enospc)
      (hmore : nextThread t ≠ d.threadRqTarget) :
      Stepped d .submit { d with dispatch := .submitting rq (nextThread t) } (some .enospc)
  | relay (i : ThreadId) (e : Driver.Event) (relay : Relay) (o : Option SubmitResult) (hsubmit : e.isSubmit = false)
      (hstep : Driver.step (d.relayData i) e = some (relay, o)) :
      Stepped d (.relay i e) { d with relayData := Function.update d.relayData i relay } none

variable {d d' : Device} {e : Event} {o : Option SubmitResult}

theorem offer_stepped {rq : QueuedRequest} {t : UInt8} (hhand : d.dispatch = .submitting rq t)
    (h : d.offer rq t = some (d', o)) : Stepped d .submit d' o := by
  obtain ⟨i, hi, h⟩ := Option.bind_eq_some_iff.mp h
  cases hres : submitAtddRequest (d.relayData i) rq.rq with
  | mk relay res =>
    rw [hres] at h
    cases res with
    | ok =>
      cases h
      exact .gives rq t i relay hhand hi hres
    | enospc =>
      have hfull : (submitAtddRequest (d.relayData i) rq.rq).2 = .enospc := by rw [hres]
      dsimp only at h
      split at h
      · cases h
        exact .requeues rq t i hhand hi hfull ‹_›
      · cases h
        exact .refused rq t i hhand hi hfull ‹_›

theorem step_stepped (h : step d e = some (d', o)) : Stepped d e d' o := by
  unfold step at h
  split at h
  · cases h
    exact .arrive _ _
  · cases h
    exact .call ‹_›
  · rename_i hfetching
    split at h
    · cases h
      exact .drained hfetching ‹_›
    · rename_i rq queue hqueue
      split at h
      · cases h
        exact .skips rq queue hfetching hqueue ‹_›
      · rename_i hpass
        cases h
        exact .takes rq queue hfetching hqueue (Bool.eq_false_iff.mpr hpass)
  · exact offer_stepped ‹_› h
  · split at h
    · cases h
    · rename_i hsubmit
      obtain ⟨⟨relay, o'⟩, hstep, heq⟩ := Option.map_eq_some_iff.mp h
      cases heq
      exact .relay _ _ relay o' (Bool.eq_false_iff.mpr hsubmit) hstep
  · cases h

end Device

end AtomicDisk.Driver
