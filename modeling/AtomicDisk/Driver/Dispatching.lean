import AtomicDisk.Driver.Device
import Mathlib.Algebra.BigOperators.Group.Finset.Piecewise
import Mathlib.Algebra.Order.BigOperators.Group.Finset
import Mathlib.Algebra.Order.Group.Multiset
import Mathlib.Tactic.Abel

/-! What becomes of the requests of the device, over whole runs. Every request that has arrived is in one place,
    and moves on through them:

        queue ──▶ at hand ──▶ slots of one relay, completed ≤ position < accepted ──▶ ended by it
                     └─▶ ended as a passthrough request -/

namespace AtomicDisk.Driver
open Schemes Ring

/-! ### The requests of a relay -/

variable {s s' : Relay} {log : List Request}

/-- The requests in the ring and those that have been ended are those that were submitted. -/
structure Logged (log : List Request) (s : Relay) : Prop where
  count : log.length = s.submitted
  slots : ∀ p b, (s.requestsBuf p).content = some b → log[b.serial]? = some b.rq
  ended : ∀ e ∈ s.ended, log[e.rq.serial]? = some e.rq.rq
  last : ∀ b, s.phase = .finishing (some b) → log[b.serial]? = some b.rq

theorem Logged.create (id : UInt64) (memory : BitVec 8 → UInt64) : Logged [] (.create id memory) :=
  ⟨rfl, by simp [Relay.create], by simp [Relay.create], by simp [Relay.create]⟩

/-- What touches neither the ring nor what has been ended. -/
theorem Logged.keep (h : Logged log s) (hsubmitted : s'.submitted = s.submitted)
    (hring : s'.requestsBuf = s.requestsBuf) (hended : s'.ended = s.ended)
    (hphase : ∀ b, s'.phase = .finishing (some b) → s.phase = .finishing (some b)) : Logged log s' := by
  refine ⟨h.count.trans hsubmitted.symm, ?_, ?_, fun b hb => h.last b (hphase b hb)⟩
  · rw [hring]
    exact h.slots
  · rw [hended]
    exact h.ended

theorem Logged.submit (h : Logged log s) (rq : Request) :
    Logged (log ++ [rq])
      { s with
        requestsBuf := Function.update s.requestsBuf s.bufAcceptedPos
          ⟨s.requestIdentCounter, some ⟨s.submitted, rq⟩⟩
        bufAcceptedPos := s.bufAcceptedPos + 1
        requestIdentCounter := s.requestIdentCounter + atddThreadsCount
        submitted := s.submitted + 1 } := by
  have hold : ∀ {x : ℕ} {rq' : Request}, log[x]? = some rq' → (log ++ [rq])[x]? = some rq' := by
    intro x rq' hx
    rw [List.getElem?_append_left (List.getElem?_eq_some_iff.mp hx).1, hx]
  refine ⟨?_, fun p b hb => ?_, fun e he => hold (h.ended e he), fun b hb => hold (h.last b hb)⟩
  · rw [List.length_append, h.count]
    rfl
  · dsimp only at hb
    rw [Function.update_apply] at hb
    split at hb
    · obtain rfl := Option.some.inj hb
      rw [← h.count, List.getElem?_concat_length]
    · exact hold (h.slots p b hb)

/-- A response is for a request in the ring; the last one is kept in `rq`. -/
theorem Logged.finish (h : Logged log s) (cmdR : AtddCmdReturn) {rq : Option BlkRequest}
    (hrq : s.phase = .finishing rq) : Logged log (finishCompletedRequest s cmdR rq) := by
  unfold finishCompletedRequest
  split
  · cases rq with
    | none => exact h.keep rfl rfl rfl (by simp)
    | some b =>
      refine ⟨h.count, h.slots, fun e he => ?_, h.last⟩
      rcases List.mem_append.mp he with he | he
      · exact h.ended e he
      · obtain rfl := List.mem_singleton.mp he
        exact h.last b hrq
  · rename_i p hfind
    have hslot : (⟨cmdR.ident, (s.requestsBuf p).content⟩ : AtddRequest) = s.requestsBuf p := by
      rw [← atddFindRequestPos_ident hfind]
    dsimp only
    rw [hslot]
    have hslots : ∀ q b, (swapOut s.requestsBuf s.bufCompletedPos p q).content = some b →
        log[b.serial]? = some b.rq := by
      intro q b hb
      rw [swapOut_eq_swap] at hb
      exact h.slots _ b hb
    cases hcontent : (s.requestsBuf p).content with
    | none => exact ⟨h.count, hslots, h.ended, by simp⟩
    | some b =>
      have hb := h.slots p b hcontent
      refine ⟨h.count, hslots, fun e he => ?_, fun b' hb' => ?_⟩
      · rcases List.mem_append.mp he with he | he
        · exact h.ended e he
        · obtain rfl := List.mem_singleton.mp he
          exact hb
      · obtain rfl : b = b' := Option.some.inj (Phase.finishing.inj hb')
        exact hb

theorem Logged.send (h : Logged log s) {cmdsToSend : ℕ} {outcome : SendOutcome}
    (hsend : sendAcceptedRequest s cmdsToSend outcome = some s') : Logged log s' := by
  obtain ⟨hring, -, hsubmitted⟩ := sendAcceptedRequest_ring hsend
  have hrest : s'.ended = s.ended ∧ ∀ b, s'.phase ≠ .finishing (some b) := by
    unfold sendAcceptedRequest at hsend
    dsimp only at hsend
    split at hsend
    · cases hsend
      exact ⟨rfl, by simp⟩
    · cases hsend
      exact ⟨rfl, by simp⟩
    · cases hsend
      exact ⟨rfl, by simp⟩
    · split at hsend
      · cases hsend
      · cases hsend
        exact ⟨rfl, by simp⟩
    · cases hsend
      exact ⟨rfl, by simp⟩
  exact h.keep hsubmitted hring hrest.1 fun b hb => absurd hb (hrest.2 b)

theorem Stepped.logged {e : Event} (hs : Stepped s e s') (he : e.isSubmit = false) (h : Logged log s) :
    Logged log s' := by
  cases hs with
  | refused rq hfull => cases he
  | submitted rq hroom => cases he
  | connectionError => exact h.keep rfl rfl rfl fun _ hb => hb
  | lose ident => exact h.keep rfl rfl rfl fun _ hb => hb
  | fetch cmdR rq hphase hmem =>
    have hold : Logged log
        { s with
          pendingCompletedPos := s.pendingCompletedPos + 1
          inFlight := s.inFlight.erase cmdR.ident } := h.keep rfl rfl rfl fun _ hb => hb
    exact hold.finish cmdR hphase
  | send outcome cmdsToSend s' hphase hsend => exact h.send hsend
  | _ => exact h.keep rfl rfl rfl (by simp)

/-- Every request that was submitted has been ended, or has not been completed. -/
theorem Sound.serials (h : Sound s) :
    (endedSerials s ++ uncompleted s.submitted (endedSerials s)).Perm (List.range s.submitted) := by
  have hdisjoint : (endedSerials s ++ uncompleted s.submitted (endedSerials s)).Nodup := by
    refine List.nodup_append.mpr ⟨h.ring.once, List.nodup_range.filter _, fun x hx y hy heq => ?_⟩
    have hnot := (List.mem_filter.mp hy).2
    simp [← heq, hx] at hnot
  refine (List.perm_ext_iff_of_nodup hdisjoint List.nodup_range).mpr fun x => ?_
  have hknown := h.ring.known x
  simp only [List.mem_append, uncompleted, List.mem_filter, List.mem_range, decide_eq_true_eq]
  tauto

theorem filterMap_range {α : Type} (l : List α) : (List.range l.length).filterMap (fun x => l[x]?) = l := by
  induction l with
  | nil => rfl
  | cons a l ih =>
    rw [List.length_cons, List.range_succ_eq_map, List.filterMap_cons, List.filterMap_map]
    simpa using ih

/-- Those that have been ended, and those in the slots from completed to accepted. -/
theorem Sound.split (h : Sound s) {α : Type} {given : List α} (hcount : given.length = s.submitted) :
    ((endedSerials s).filterMap (fun x => given[x]?) ++
      (window s.requestsBuf s.bufCompletedPos (gap s.bufCompletedPos s.bufAcceptedPos)).filterMap
        fun r => (serialOf r).bind fun x => given[x]?).Perm given := by
  have hlive := h.ring.live.filterMap fun o => o.bind fun x => given[x]?
  rw [List.filterMap_map, List.filterMap_map] at hlive
  have hall := h.serials.filterMap fun x => given[x]?
  rw [List.filterMap_append, ← hcount, filterMap_range] at hall
  rw [hcount] at hall
  exact (hlive.append_left _).trans hall

/-! ### The places of the requests -/

namespace Device

/-- The request that is offered to the relays. -/
def atHand (d : Device) : List QueuedRequest :=
  match d.dispatch with
  | .submitting rq _ => [rq]
  | _ => []

/-- The relay that it is offered to. -/
def asked (d : Device) : Option ThreadId :=
  match d.dispatch with
  | .submitting _ t => relayAt t
  | _ => none

/-- The requests that a relay has ended, call by call. -/
def endedBy (d : Device) (i : ThreadId) : List QueuedRequest :=
  (endedSerials (d.relayData i)).filterMap fun x => (d.given i)[x]?

/-- The requests in the slots of a relay, from completed to accepted. -/
def heldBy (d : Device) (i : ThreadId) : List QueuedRequest :=
  let s := d.relayData i
  (window s.requestsBuf s.bufCompletedPos (gap s.bufCompletedPos s.bufAcceptedPos)).filterMap
    fun r => (serialOf r).bind fun x => (d.given i)[x]?

def ended (d : Device) : Multiset QueuedRequest := d.skipped + ∑ i, (d.endedBy i : Multiset QueuedRequest)

def waiting (d : Device) : Multiset QueuedRequest :=
  d.queue + d.atHand + ∑ i, (d.heldBy i : Multiset QueuedRequest)

/-- What one step has to respect: fewer than `2 ^ 60` requests arrive, a relay is offered a request only with a
    slot to spare, and nothing is to come when everything is sent again. -/
def Careful (d : Device) : Event → Prop
  | .arrive .. => d.arrived.length < 2 ^ 60
  | .submit => ∀ i ∈ d.asked, Spare (d.relayData i)
  | .relay i e => Settled (d.relayData i) e
  | _ => True

/-- The device in order. -/
structure Orderly (d : Device) : Prop where
  sound : ∀ i, Sound (d.relayData i)
  numbered : ∀ i : ThreadId, Numbered (UInt64.ofNat i) (d.relayData i).requestsBuf
    (d.relayData i).requestIdentCounter (d.relayData i).submitted
  logged : ∀ i, Logged ((d.given i).map QueuedRequest.rq) (d.relayData i)
  places : (d.queue + d.atHand + (d.skipped + ∑ i, (d.given i : Multiset QueuedRequest)) : Multiset QueuedRequest) =
    d.arrived
  nums : d.arrived.map QueuedRequest.num = List.range d.arrived.length
  few : d.arrived.length ≤ 2 ^ 60
  relayed : (∀ rq ∈ d.atHand, rq.passthrough = false) ∧ ∀ i, ∀ rq ∈ d.given i, rq.passthrough = false
  skipped : ∀ rq ∈ d.skipped, rq.passthrough = true

variable {d d' : Device} {e : Event} {o : Option SubmitResult} {memory : ThreadId → BitVec 8 → UInt64}

theorem Orderly.create (memory : ThreadId → BitVec 8 → UInt64) : Orderly (create memory) where
  sound i := .create _ _
  numbered i := ⟨by simp [Device.create, Relay.create], by simp [Device.create, Relay.create]⟩
  logged i := .create _ _
  places := by simp [Device.create, atHand]
  nums := rfl
  few := by simp [Device.create]
  relayed := by simp [Device.create, atHand]
  skipped := by simp [Device.create]

/-- A relay has accepted at most as many requests as have arrived. -/
theorem Orderly.submitted_le (h : Orderly d) (i : ThreadId) : (d.relayData i).submitted ≤ d.arrived.length := by
  rw [← (h.logged i).count, List.length_map, ← Multiset.coe_card, ← Multiset.coe_card d.arrived, ← h.places]
  refine Multiset.card_le_card ?_
  have hsum : (d.given i : Multiset QueuedRequest) ≤ ∑ i, (d.given i : Multiset QueuedRequest) :=
    Finset.single_le_sum (fun _ _ => Multiset.zero_le _) (Finset.mem_univ i)
  exact hsum.trans ((Multiset.le_add_left _ _).trans (Multiset.le_add_left _ _))

/-- The next identifier of a relay is not in its ring. -/
theorem Orderly.fresh (h : Orderly d) (i : ThreadId) : Fresh (d.relayData i) := by
  have hle := h.submitted_le i
  have hfew := h.few
  exact (h.numbered i).fresh (by omega)

/-! ### One step -/

theorem submit_ok {s s' : Relay} {rq : Request} (h : submitAtddRequest s rq = (s', .ok)) :
    ¬ (s.bufAcceptedPos.toNat : ℤ) - s.bufCompletedPos.toNat = 255 ∧
      s' = { s with
        requestsBuf := Function.update s.requestsBuf s.bufAcceptedPos
          ⟨s.requestIdentCounter, some ⟨s.submitted, rq⟩⟩
        bufAcceptedPos := s.bufAcceptedPos + 1
        requestIdentCounter := s.requestIdentCounter + atddThreadsCount
        submitted := s.submitted + 1 } := by
  unfold submitAtddRequest at h
  split at h
  · cases h
  · exact ⟨‹_›, (Prod.mk.inj h).1.symm⟩

/-- One more request for one of the relays. -/
theorem sum_given {α : Type} (given : ThreadId → List α) (i : ThreadId) (x : α) :
    ∑ j, (Function.update given i (given i ++ [x]) j : Multiset α) = ∑ j, (given j : Multiset α) + {x} := by
  have hterm : ∀ j, (Function.update given i (given i ++ [x]) j : Multiset α) =
      given j + if j = i then {x} else 0 := by
    intro j
    rw [Function.update_apply]
    split
    · rename_i hj
      rw [hj]
      rfl
    · rw [add_zero]
  rw [Finset.sum_congr rfl fun j _ => hterm j, Finset.sum_add_distrib, Finset.sum_ite_eq' ]
  simp

theorem Orderly.relay (h : Orderly d) {i : ThreadId} {e : Driver.Event} {relay : Relay}
    (hs : Driver.Stepped (d.relayData i) e relay) (hsubmit : e.isSubmit = false)
    (hsettled : Settled (d.relayData i) e) :
    Orderly { d with relayData := Function.update d.relayData i relay } := by
  have hcareful : Driver.Careful (d.relayData i) e := ⟨by simp [hsubmit], hsettled⟩
  refine { h with sound := ?_, numbered := ?_, logged := ?_ }
  · exact (Function.forall_update_iff _ _).mpr ⟨hs.sound (h.sound i) hcareful, fun j _ => h.sound j⟩
  · exact (Function.forall_update_iff d.relayData fun (j : ThreadId) r =>
      Numbered (UInt64.ofNat j) r.requestsBuf r.requestIdentCounter r.submitted).mpr
      ⟨hs.numbered (h.numbered i), fun j _ => h.numbered j⟩
  · exact (Function.forall_update_iff d.relayData fun j r => Logged ((d.given j).map QueuedRequest.rq) r).mpr
      ⟨hs.logged hsubmit (h.logged i), fun j _ => h.logged j⟩

theorem Orderly.gives (h : Orderly d) {rq : QueuedRequest} {t : UInt8} {i : ThreadId} {relay : Relay}
    (hhand : d.dispatch = .submitting rq t) (hok : submitAtddRequest (d.relayData i) rq.rq = (relay, .ok))
    (hspare : Spare (d.relayData i)) :
    Orderly
      { d with
        relayData := Function.update d.relayData i relay
        given := Function.update d.given i (d.given i ++ [rq])
        threadRqTarget := nextThread d.threadRqTarget
        dispatch := .fetching } := by
  obtain ⟨hroom, rfl⟩ := submit_ok hok
  have hatHand : d.atHand = [rq] := by rw [atHand, hhand]
  have hplaces := h.places
  refine ⟨?_, ?_, fun j => ?_, ?_, h.nums, h.few, ⟨by simp [atHand], fun j x hx => ?_⟩, h.skipped⟩
  · exact (Function.forall_update_iff _ _).mpr
      ⟨(h.sound i).submit hspare (h.fresh i) rq.rq hroom, fun j _ => h.sound j⟩
  · exact (Function.forall_update_iff d.relayData fun (j : ThreadId) r =>
      Numbered (UInt64.ofNat j) r.requestsBuf r.requestIdentCounter r.submitted).mpr
      ⟨(h.numbered i).submit _ rq.rq, fun j _ => h.numbered j⟩
  · rcases eq_or_ne j i with rfl | hne
    · simpa using (h.logged j).submit rq.rq
    · simpa [hne] using h.logged j
  · rw [sum_given, ← hplaces, hatHand]
    simp only [atHand, Multiset.coe_nil, Multiset.coe_singleton]
    abel
  · dsimp only at hx
    rw [Function.update_apply] at hx
    split at hx
    · rcases List.mem_append.mp hx with hx | hx
      · exact h.relayed.2 i x hx
      · rw [List.mem_singleton.mp hx]
        exact h.relayed.1 rq (by simp [hatHand])
    · exact h.relayed.2 j x hx

/-- Every step that is careful keeps the device in order. -/
theorem Stepped.orderly (hs : Stepped d e d' o) (h : Orderly d) (hcareful : Careful d e) : Orderly d' := by
  have hplaces := h.places
  cases hs with
  | arrive passthrough rq =>
    refine { h with places := ?_, nums := ?_, few := ?_ }
    · simp only [atHand, ← Multiset.coe_add] at hplaces ⊢
      rw [← hplaces]
      abel
    · simp [h.nums, List.range_succ]
    · have hlt : d.arrived.length < 2 ^ 60 := hcareful
      simp only [List.length_append, List.length_singleton]
      omega
  | call hidle =>
    have hatHand : d.atHand = [] := by rw [atHand, hidle]
    rw [hatHand] at hplaces
    exact { h with places := hplaces, relayed := ⟨by simp [atHand], h.relayed.2⟩ }
  | drained hfetching hqueue =>
    have hatHand : d.atHand = [] := by rw [atHand, hfetching]
    rw [hatHand] at hplaces
    exact { h with places := hplaces, relayed := ⟨by simp [atHand], h.relayed.2⟩ }
  | skips rq queue hfetching hqueue hpass =>
    have hatHand : d.atHand = [] := by rw [atHand, hfetching]
    refine { h with places := ?_, skipped := fun x hx => ?_ }
    · rw [hqueue, ← Multiset.cons_coe, ← Multiset.singleton_add] at hplaces
      rw [← hplaces]
      simp only [atHand, hfetching, ← Multiset.coe_add, Multiset.coe_singleton]
      abel
    · rcases List.mem_append.mp hx with hx | hx
      · exact h.skipped x hx
      · rw [List.mem_singleton.mp hx]
        exact hpass
  | takes rq queue hfetching hqueue hpass =>
    have hatHand : d.atHand = [] := by rw [atHand, hfetching]
    refine { h with places := ?_, relayed := ⟨?_, h.relayed.2⟩ }
    · rw [hqueue, ← Multiset.cons_coe, ← Multiset.singleton_add, hatHand] at hplaces
      rw [← hplaces]
      simp only [atHand, Multiset.coe_singleton, Multiset.coe_nil]
      abel
    · simp [atHand, hpass]
  | gives rq t i relay hhand hi hok =>
    have hasked : d.asked = some i := by simp only [asked, hhand, hi]
    exact h.gives hhand hok (hcareful i hasked)
  | requeues rq t i hhand hi hfull hlast =>
    have hatHand : d.atHand = [rq] := by rw [atHand, hhand]
    refine { h with places := ?_, relayed := ⟨by simp [atHand], h.relayed.2⟩ }
    rw [hatHand] at hplaces
    rw [← hplaces, ← Multiset.cons_coe, ← Multiset.singleton_add]
    simp only [atHand, Multiset.coe_singleton, Multiset.coe_nil]
    abel
  | refused rq t i hhand hi hfull hmore =>
    have hatHand : d.atHand = [rq] := by rw [atHand, hhand]
    have hrelayed := h.relayed
    rw [hatHand] at hplaces hrelayed
    exact { h with places := hplaces, relayed := hrelayed }
  | relay i e relay o hsubmit hstep => exact h.relay (Driver.step_stepped hstep) hsubmit hcareful

theorem orderly {tr : Trace}
    (h : Run step Careful (create memory) tr d) : Orderly d := by
  refine h.invariant (I := fun _ d => Orderly d) (.create memory) ?_
  intro tr x _ hI hP hs
  exact (step_stepped hs).orderly hI hP

/-! ### Every request is in one place -/

/-- Every request that has arrived has been ended once or is waiting in one place. Those that go to a relay
    are ended as what they are, the others are passthrough requests, and the identifiers in all rings tell
    the requests apart. -/
structure Accounted (d : Device) : Prop where
  all : d.ended + d.waiting = d.arrived
  once : (d.ended + d.waiting).Nodup
  skipped : ∀ rq ∈ d.skipped, rq.passthrough = true
  relayed : ∀ i, ∀ e ∈ (d.relayData i).ended,
    ∃ rq, (d.given i)[e.rq.serial]? = some rq ∧ rq.passthrough = false ∧ rq.rq = e.rq.rq
  idents : ∀ i j p q, ((d.relayData i).requestsBuf p).content.isSome →
    ((d.relayData j).requestsBuf q).content.isSome →
    ((d.relayData i).requestsBuf p).ident = ((d.relayData j).requestsBuf q).ident → i = j ∧ p = q

/-- What the relays have accepted they have ended or have in their rings. -/
theorem Orderly.split (h : Orderly d) :
    ∑ i, (d.endedBy i : Multiset QueuedRequest) + ∑ i, (d.heldBy i : Multiset QueuedRequest) =
      ∑ i, (d.given i : Multiset QueuedRequest) := by
  rw [← Finset.sum_add_distrib]
  refine Finset.sum_congr rfl fun i _ => ?_
  have hcount := (h.logged i).count
  rw [List.length_map] at hcount
  exact Multiset.coe_eq_coe.mpr ((h.sound i).split hcount)

/-- Relays give their requests different identifiers. -/
theorem ident_relay {i j : ThreadId} {x y : ℕ} (hx : x < 2 ^ 60) (hy : y < 2 ^ 60)
    (h : UInt64.ofNat i + atddThreadsCount * UInt64.ofNat x = UInt64.ofNat j + atddThreadsCount * UInt64.ofNat y) :
    i = j := by
  have hnat := congrArg UInt64.toNat h
  have hten : atddThreadsCount.toNat = 10 := rfl
  have hi := i.isLt
  have hj := j.isLt
  simp only [UInt64.toNat_add, UInt64.toNat_mul, UInt64.toNat_ofNat', hten] at hnat
  -- nothing wraps around
  simp (disch := omega) only [Nat.mod_eq_of_lt] at hnat
  exact Fin.ext (by omega)

theorem Orderly.accounted (h : Orderly d) : Accounted d := by
  have hall : d.ended + d.waiting = d.arrived := by
    rw [← h.places, ← h.split, ended, waiting]
    abel
  have hnodup : d.arrived.Nodup := by
    refine List.Nodup.of_map QueuedRequest.num ?_
    rw [h.nums]
    exact List.nodup_range
  refine ⟨hall, ?_, h.skipped, fun i e he => ?_, fun i j p q hp hq heq => ?_⟩
  · rw [hall]
    exact Multiset.coe_nodup.mpr hnodup
  · have hlog := (h.logged i).ended e he
    rw [List.getElem?_map] at hlog
    obtain ⟨rq, hrq, heq⟩ := Option.map_eq_some_iff.mp hlog
    exact ⟨rq, hrq, h.relayed.2 i rq (List.mem_of_getElem? hrq), heq⟩
  · obtain ⟨b, hb⟩ := Option.isSome_iff_exists.mp hp
    obtain ⟨b', hb'⟩ := Option.isSome_iff_exists.mp hq
    obtain ⟨hlt, hident⟩ := (h.numbered i).slots p b hb
    obtain ⟨hlt', hident'⟩ := (h.numbered j).slots q b' hb'
    have hi := h.submitted_le i
    have hj := h.submitted_le j
    have hfew := h.few
    have hsame : i = j := by
      refine ident_relay (x := b.serial) (y := b'.serial) (by omega) (by omega) ?_
      rw [← hident, ← hident', heq]
    subst hsame
    exact ⟨rfl, (h.sound i).ring.idents p q hp hq heq⟩

/-- CORRECT (the device): in every run in which no relay is offered a request when 255 are outstanding in it and
    its completed position is not 0, and no response is still to come when a relay sends everything again, every
    request that has arrived has been ended once, or is in the queue, or at hand, or in the ring of one relay. -/
theorem requests_accounted {tr : Trace}
    (h : Run step Careful (create memory) tr d) : Accounted d := (orderly h).accounted

section run

instance : Decidable (Careful d e) :=
  match e with
  | .arrive .. => inferInstanceAs (Decidable (_ < _))
  | .submit => inferInstanceAs (Decidable (∀ i ∈ d.asked, Spare (d.relayData i)))
  | .relay .. => inferInstanceAs (Decidable (Settled _ _))
  | .call | .fetch => isTrue trivial

/-- A passthrough request and two reads; the first read is answered, the second is in the ring of the next
    relay. -/
def twoReads : List Event :=
  [.arrive true readRequest, .arrive false readRequest, .arrive false readRequest, .call, .fetch, .fetch, .submit,
    .fetch, .submit, .fetch] ++
  [.wake false, .handleError, .look false, .startSend, .send .sent, .endSend, .wake true, .handleError, .look true,
    .fetch ⟨0, [], .ok⟩].map (.relay 0)

theorem twoReads_accounted : ∃ tr d, Run step Careful (create fun _ _ => 0) tr d ∧ Accounted d ∧
    d.arrived.length = 3 ∧ d.ended.card = 2 ∧ (d.heldBy 1).length = 1 := by
  have hrun := Run.exists_of_exec step Careful (create fun _ _ => 0) twoReads
    (fun _ d => d.arrived.length = 3 ∧ d.ended.card = 2 ∧ (d.heldBy 1).length = 1) (by decide +kernel)
  obtain ⟨tr, d, h, hobs⟩ := hrun
  exact ⟨tr, d, h, requests_accounted h, of_decide_eq_true hobs⟩

end run

end Device

end AtomicDisk.Driver
