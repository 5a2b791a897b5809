import AtomicDisk.Driver.Relay
import Mathlib.Data.List.Perm.Subperm

/-! The order of a relay's ring, and that careful steps keep it (`Ordered`, `Sound`).

        submit         the window grows at accepted, if a slot is left and the identifier is new
        send           forwarded moves on, and the identifier is in flight
        a response     finds its request between completed and forwarded: it changes places with the one at
                       completed, which moves on
        an error       forwarded goes back to completed; if responses are still to come then, they find their
                       requests behind forwarded, or ended -/

namespace AtomicDisk.Driver
open Schemes Ring

/-! ### The ring -/

/-- The submissions that have not been ended. -/
def uncompleted (submitted : ℕ) (ended : List ℕ) : List ℕ := (List.range submitted).filter (· ∉ ended)

/-- The serial number of the request in a slot. -/
def serialOf (r : AtddRequest) : Option ℕ := r.content.map BlkRequest.serial

variable {buf : BitVec 8 → AtddRequest} {completed forwarded accepted : BitVec 8} {submitted : ℕ}
  {ended : List ℕ} {inFlight : List UInt64}

/-- The ring in order: between completed and accepted are the requests that have not been ended, up to
    forwarded those whose responses may come; the slots behind accepted hold ended requests or have not been
    used; and no identifier is there twice. -/
structure Ordered (buf : BitVec 8 → AtddRequest) (completed forwarded accepted : BitVec 8) (submitted : ℕ)
    (ended : List ℕ) (inFlight : List UInt64) : Prop where
  position : accepted = BitVec.ofNat 8 submitted
  used : ∀ p, (buf p).content.isSome ↔ p.toNat < submitted
  idents : ∀ p q, (buf p).content.isSome → (buf q).content.isSome → (buf p).ident = (buf q).ident → p = q
  stale : ∀ p rq, (buf p).content = some rq → gap completed accepted ≤ gap completed p → rq.serial ∈ ended
  live : ((window buf completed (gap completed accepted)).map serialOf).Perm
    ((uncompleted submitted ended).map some)
  order : gap completed forwarded ≤ gap completed accepted
  sent : inFlight.Subperm ((window buf completed (gap completed forwarded)).map AtddRequest.ident)
  once : ended.Nodup
  known : ∀ x ∈ ended, x < submitted

theorem Ordered.create (memory : BitVec 8 → UInt64) : Ordered (fun p => ⟨memory p, none⟩) 0 0 0 0 [] [] := by
  refine ⟨rfl, by simp, by simp, by simp, ?_, le_rfl, ?_, List.nodup_nil, by simp⟩
  · simp [window, uncompleted]
  · simp [window]

/-- The requests from completed to accepted have not been ended. -/
theorem Ordered.content (h : Ordered buf completed forwarded accepted submitted ended inFlight) {k : ℕ}
    (hk : k < gap completed accepted) :
    ∃ rq, (buf (slot completed k)).content = some rq ∧ rq.serial ∈ uncompleted submitted ended := by
  have hmem : serialOf (buf (slot completed k)) ∈ (uncompleted submitted ended).map some :=
    h.live.subset (List.mem_map_of_mem (mem_window.mpr ⟨k, hk, rfl⟩))
  obtain ⟨x, hx, heq⟩ := List.mem_map.mp hmem
  obtain ⟨rq, hrq, rfl⟩ := Option.map_eq_some_iff.mp heq.symm
  exact ⟨rq, hrq, hx⟩

/-- As many requests have not been ended as there are slots from completed to accepted. -/
theorem Ordered.count (h : Ordered buf completed forwarded accepted submitted ended inFlight) :
    (uncompleted submitted ended).length = gap completed accepted := by
  have hlen := h.live.length_eq
  rw [List.length_map, List.length_map, window_length] at hlen
  exact hlen.symm

/-! ### Submitting -/

theorem uncompleted_submit (hknown : ∀ x ∈ ended, x < submitted) :
    uncompleted (submitted + 1) ended = uncompleted submitted ended ++ [submitted] := by
  have hnew : submitted ∉ ended := fun hmem => lt_irrefl _ (hknown _ hmem)
  simp [uncompleted, List.range_succ, List.filter_append, hnew]

theorem used_submit (hpos : accepted = BitVec.ofNat 8 submitted)
    (hused : ∀ p, (buf p).content.isSome ↔ p.toNat < submitted) (ident : UInt64) (rq : BlkRequest)
    (p : BitVec 8) : (Function.update buf accepted ⟨ident, some rq⟩ p).content.isSome ↔
      p.toNat < submitted + 1 := by
  have hlt : p.toNat < 256 := p.isLt
  have haccepted : accepted.toNat = submitted % 256 := by rw [hpos, BitVec.toNat_ofNat]
  by_cases hp : p = accepted
  · rw [hp, Function.update_self]
    have hle : submitted % 256 ≤ submitted := Nat.mod_le _ _
    simp only [Option.isSome_some, true_iff]
    omega
  · rw [Function.update_of_ne hp, hused]
    have hne : p.toNat ≠ accepted.toNat := fun h => hp (BitVec.eq_of_toNat_eq h)
    omega

/-- A request is submitted to a ring that has a slot to spare, under an identifier that is not there. -/
theorem Ordered.submit (h : Ordered buf completed forwarded accepted submitted ended inFlight)
    (hroom : accepted + 1 ≠ completed) {ident : UInt64}
    (hfresh : ∀ p, (buf p).content.isSome → (buf p).ident ≠ ident) (rq : Request) :
    Ordered (Function.update buf accepted ⟨ident, some ⟨submitted, rq⟩⟩) completed forwarded (accepted + 1)
      (submitted + 1) ended inFlight := by
  have hgap : gap completed (accepted + 1) = gap completed accepted + 1 := gap_succ hroom
  refine ⟨?_, used_submit h.position h.used _ _, fun p q hp hq heq => ?_, fun p rq' hp hstale => ?_, ?_, ?_, ?_,
    h.once, fun x hx => (h.known x hx).trans (Nat.lt_succ_self _)⟩
  · rw [h.position, BitVec.ofNat_add]
    rfl
  · by_cases hpa : p = accepted
    · by_cases hqa : q = accepted
      · rw [hpa, hqa]
      · rw [hpa, Function.update_self, Function.update_of_ne hqa] at heq
        rw [Function.update_of_ne hqa] at hq
        exact absurd heq.symm (hfresh q hq)
    · rw [Function.update_of_ne hpa] at hp heq
      by_cases hqa : q = accepted
      · rw [hqa, Function.update_self] at heq
        exact absurd heq (hfresh p hp)
      · rw [Function.update_of_ne hqa] at hq heq
        exact h.idents p q hp hq heq
  · rw [hgap] at hstale
    have hpa : p ≠ accepted := by
      rintro rfl
      omega
    rw [Function.update_of_ne hpa] at hp
    exact h.stale p rq' hp (by omega)
  · rw [hgap, window_push, uncompleted_submit h.known, List.map_append, List.map_append]
    exact h.live.append_right _
  · rw [hgap]
    exact h.order.trans (Nat.le_succ _)
  · rw [window_update h.order]
    exact h.sent

/-! ### Sending -/

/-- The next request is sent. -/
theorem Ordered.forward (h : Ordered buf completed forwarded accepted submitted ended inFlight)
    (hlt : gap completed forwarded < gap completed accepted) :
    Ordered buf completed (forwarded + 1) accepted submitted ended (inFlight ++ [(buf forwarded).ident]) := by
  have hgap : gap completed (forwarded + 1) = gap completed forwarded + 1 := gap_succ_of_lt hlt
  refine ⟨h.position, h.used, h.idents, h.stale, h.live, by omega, ?_, h.once, h.known⟩
  rw [hgap, window_concat, slot_gap, List.map_append]
  exact h.sent.append (List.Subperm.refl _)

/-- Everything is to be sent again, when no response is to come. -/
theorem Ordered.again (h : Ordered buf completed forwarded accepted submitted ended inFlight) :
    Ordered buf completed completed accepted submitted ended [] := by
  refine ⟨h.position, h.used, h.idents, h.stale, h.live, ?_, List.nil_subperm, h.once, h.known⟩
  rw [gap_self]
  exact Nat.zero_le _

theorem Ordered.lose (h : Ordered buf completed forwarded accepted submitted ended inFlight) (ident : UInt64) :
    Ordered buf completed forwarded accepted submitted ended (inFlight.erase ident) :=
  ⟨h.position, h.used, h.idents, h.stale, h.live, h.order, (List.erase_subperm ident inFlight).trans h.sent,
    h.once, h.known⟩

/-! ### Finishing -/

/-- The search finds the slot of a request: slots in front of it that have not been used there are none. -/
theorem Ordered.find (h : Ordered buf completed forwarded accepted submitted ended inFlight) {p : BitVec 8}
    (hp : (buf p).content.isSome) : atddFindRequestPos buf (buf p).ident = some p := by
  have hfound : (List.range atddRequestsBufSize).find?
      (fun pos => (buf (BitVec.ofNat 8 pos)).ident = (buf p).ident) = some p.toNat := by
    rw [List.find?_range_eq_some]
    refine ⟨by simp, List.mem_range.mpr p.isLt, fun q hq => ?_⟩
    have hlt : p.toNat < 256 := p.isLt
    have hq' : (BitVec.ofNat 8 q).toNat = q := by rw [BitVec.toNat_ofNat]; omega
    have hused : (buf (BitVec.ofNat 8 q)).content.isSome := by
      rw [h.used, hq']
      exact hq.trans ((h.used p).mp hp)
    simp only [Bool.not_eq_eq_eq_not, Bool.not_true, decide_eq_false_iff_not]
    intro heq
    have hqp := h.idents _ _ hused hp heq
    rw [← hqp, hq'] at hq
    exact lt_irrefl _ hq
  rw [atddFindRequestPos, hfound, Option.map_some, BitVec.ofNat_toNat, BitVec.setWidth_eq]

theorem uncompleted_finish {x : ℕ} (hx : x ∈ uncompleted submitted ended) :
    (uncompleted submitted ended).Perm (x :: uncompleted submitted (ended ++ [x])) := by
  have hnodup : (uncompleted submitted ended).Nodup := List.nodup_range.filter _
  have herase : (uncompleted submitted ended).erase x = uncompleted submitted (ended ++ [x]) := by
    rw [hnodup.erase_eq_filter, uncompleted, uncompleted, List.filter_filter]
    refine List.filter_congr fun y _ => Bool.eq_iff_iff.mpr ?_
    simp [and_comm, not_or]
  rw [← herase]
  exact List.perm_cons_erase hx

/-- Two slots that have been used change places. -/
theorem used_swapOut (hused : ∀ p, (buf p).content.isSome ↔ p.toNat < submitted) {p : BitVec 8}
    (hc : completed.toNat < submitted) (hp : p.toNat < submitted) (q : BitVec 8) :
    (swapOut buf completed p q).content.isSome ↔ q.toNat < submitted := by
  rw [swapOut_eq_swap, hused, Equiv.swap_apply_def]
  split
  · rename_i heq
    rw [heq]
    exact ⟨fun _ => hc, fun _ => hp⟩
  · split
    · rename_i heq
      rw [heq]
      exact ⟨fun _ => hp, fun _ => hc⟩
    · rfl

/-- The slot that leaves the window holds the request that is ended, and the slots behind it are as before. -/
theorem stale_swapOut {k : ℕ} {rq rq' : BlkRequest} {q : BitVec 8}
    (hstale : ∀ p rq, (buf p).content = some rq → gap completed accepted ≤ gap completed p → rq.serial ∈ ended)
    (hk : k < gap completed accepted) (hrq : (buf (slot completed k)).content = some rq)
    (hq : (swapOut buf completed (slot completed k) q).content = some rq')
    (hbehind : gap (completed + 1) accepted ≤ gap (completed + 1) q) : rq'.serial ∈ ended ++ [rq.serial] := by
  have haccepted := gap_start_succ_of_lt hk
  rw [swapOut_eq_swap, Equiv.swap_apply_def] at hq
  split at hq
  · obtain rfl : rq = rq' := Option.some.inj (hrq.symm.trans hq)
    exact List.mem_append_right _ (List.mem_singleton_self _)
  · rename_i hqc
    have hgap : gap completed q = gap (completed + 1) q + 1 := gap_start_succ (Ne.symm hqc)
    split at hq
    · rename_i heq
      subst heq
      have hlt := gap_lt completed accepted
      rw [gap_slot (by omega)] at hgap
      omega
    · exact List.mem_append_left _ (hstale q rq' hq (by omega))

/-- A request of the window is ended: it changes places with the one at the start, which moves on. -/
theorem Ordered.takeOut (h : Ordered buf completed forwarded accepted submitted ended inFlight) {k : ℕ}
    {rq : BlkRequest} (hk : k < gap completed forwarded) (hrq : (buf (slot completed k)).content = some rq) :
    Ordered (swapOut buf completed (slot completed k)) (completed + 1) forwarded accepted submitted
      (ended ++ [rq.serial]) (inFlight.erase (buf (slot completed k)).ident) := by
  have hka : k < gap completed accepted := lt_of_lt_of_le hk h.order
  have hserial : rq.serial ∈ uncompleted submitted ended := by
    obtain ⟨rq', hrq', hmem⟩ := h.content hka
    obtain rfl : rq = rq' := Option.some.inj (hrq.symm.trans hrq')
    exact hmem
  obtain ⟨hrange, hnew⟩ := List.mem_filter.mp hserial
  have hp : (slot completed k).toNat < submitted := (h.used _).mp (by rw [hrq]; rfl)
  have hc : completed.toNat < submitted := by
    obtain ⟨rq', hrq', -⟩ := h.content (lt_of_le_of_lt (Nat.zero_le k) hka)
    rw [slot_zero] at hrq'
    exact (h.used _).mp (by rw [hrq']; rfl)
  refine ⟨h.position, used_swapOut h.used hc hp, fun p q hp hq heq => ?_,
    fun q rq' hq hbehind => stale_swapOut h.stale hka hrq hq hbehind, ?_, ?_, ?_, ?_, ?_⟩
  · rw [swapOut_eq_swap] at hp hq heq
    rw [swapOut_eq_swap] at heq
    exact (Equiv.swap completed (slot completed k)).injective (h.idents _ _ hp hq heq)
  · have hlive := ((window_swapOut hka).map serialOf).symm.trans
      (h.live.trans ((uncompleted_finish hserial).map some))
    rw [List.map_cons, List.map_cons, serialOf, hrq, Option.map_some] at hlive
    exact hlive.cons_inv
  · have horder := h.order
    have hforwarded := gap_start_succ_of_lt hk
    have haccepted := gap_start_succ_of_lt hka
    omega
  · have hsent := (h.sent.trans ((window_swapOut hk).map AtddRequest.ident).subperm).erase
      (buf (slot completed k)).ident
    rwa [List.map_cons, List.erase_cons_head] at hsent
  · refine List.nodup_append.mpr ⟨h.once, List.nodup_singleton _, fun x hx y hy => ?_⟩
    obtain rfl := List.mem_singleton.mp hy
    rintro rfl
    simp [hx] at hnew
  · intro x hx
    rcases List.mem_append.mp hx with hx | hx
    · exact h.known x hx
    · obtain rfl := List.mem_singleton.mp hx
      exact List.mem_range.mp hrange

/-- A response to a command that was sent ends its request, and takes it out of the window. -/
theorem Ordered.finish (h : Ordered buf completed forwarded accepted submitted ended inFlight) {ident : UInt64}
    (hmem : ident ∈ inFlight) : ∃ p rq, atddFindRequestPos buf ident = some p ∧ (buf p).content = some rq ∧
      (buf p).ident = ident ∧
      Ordered (swapOut buf completed p) (completed + 1) forwarded accepted submitted (ended ++ [rq.serial])
        (inFlight.erase ident) := by
  obtain ⟨r, hr, hident⟩ := List.mem_map.mp (h.sent.subset hmem)
  obtain ⟨k, hk, rfl⟩ := mem_window.mp hr
  obtain ⟨rq, hrq, -⟩ := h.content (lt_of_lt_of_le hk h.order)
  subst hident
  have hp : (buf (slot completed k)).content.isSome := by rw [hrq]; rfl
  exact ⟨slot completed k, rq, h.find hp, hrq, rfl, h.takeOut hk hrq⟩

/-! ### The relay -/

/-- The serial numbers of the requests that `blk_end_request_all` has been called for. -/
def endedSerials (s : Relay) : List ℕ := s.ended.map fun e => e.rq.serial

/-- A loop that sends has at most as many commands to send as have been accepted. -/
def Phase.Fits : Phase → ℕ → Prop
  | .sending n, accepted => n ≤ accepted
  | .fault, _ => False
  | _, _ => True

theorem Phase.Fits.mono {phase : Phase} {m n : ℕ} (h : phase.Fits m) (hmn : m ≤ n) : phase.Fits n := by
  cases phase with
  | sending cmdsToSend => exact le_trans h hmn
  | fault => exact h
  | waiting => trivial
  | awake => trivial
  | looking => trivial
  | finishing rq => trivial
  | ready => trivial

/-- The relay in order. -/
structure Sound (s : Relay) : Prop where
  ring : Ordered s.requestsBuf s.bufCompletedPos s.bufTcpForwardedPos s.bufAcceptedPos s.submitted
    (endedSerials s) s.inFlight
  phase : s.phase.Fits (gap s.bufTcpForwardedPos s.bufAcceptedPos)
  unconnected : s.connected = false → s.inFlight = []

/-- The full ring is noticed: 255 requests are there only if completed is 0. -/
def Spare (s : Relay) : Prop := s.bufAcceptedPos + 1 = s.bufCompletedPos → s.bufCompletedPos = 0

/-- The next identifier is not that of a request in the ring. -/
def Fresh (s : Relay) : Prop :=
  ∀ p, (s.requestsBuf p).content.isSome → (s.requestsBuf p).ident ≠ s.requestIdentCounter

/-- The event makes the relay send everything again on the connection it has. -/
def resends (s : Relay) : Event → Bool
  | .handleError => s.error
  | .fetchError => true
  | .send .unprepared => true
  | _ => false

/-- When everything is to be sent again, no response to what was sent before is still to come. -/
def Settled (s : Relay) (e : Event) : Prop := resends s e → s.inFlight = []

def Event.isSubmit : Event → Bool
  | .submit _ => true
  | _ => false

theorem Sound.create (id : UInt64) (memory : BitVec 8 → UInt64) : Sound (.create id memory) :=
  ⟨Ordered.create memory, trivial, fun _ => rfl⟩

variable {s s' : Relay} {e : Event}

/-- A request that is accepted. -/
theorem Sound.submit (h : Sound s) (hspare : Spare s) (hfresh : Fresh s) (rq : Request)
    (hroom : ¬ (s.bufAcceptedPos.toNat : ℤ) - s.bufCompletedPos.toNat = 255) :
    Sound { s with
      requestsBuf := Function.update s.requestsBuf s.bufAcceptedPos
        ⟨s.requestIdentCounter, some ⟨s.submitted, rq⟩⟩
      bufAcceptedPos := s.bufAcceptedPos + 1
      requestIdentCounter := s.requestIdentCounter + atddThreadsCount
      submitted := s.submitted + 1 } := by
  have hne : s.bufAcceptedPos + 1 ≠ s.bufCompletedPos := by
    intro heq
    have hzero := hspare heq
    rw [hzero] at heq hroom
    have hlast : s.bufAcceptedPos = 255#8 := by bv_omega
    rw [hlast] at hroom
    simp at hroom
  have horder := h.ring.order
  have hgap : gap s.bufCompletedPos (s.bufAcceptedPos + 1) = gap s.bufCompletedPos s.bufAcceptedPos + 1 :=
    gap_succ hne
  have hgrows : gap s.bufTcpForwardedPos s.bufAcceptedPos ≤
      gap s.bufTcpForwardedPos (s.bufAcceptedPos + 1) := by
    rw [gap_of_le horder, gap_of_le (horder.trans (by omega)), hgap]
    omega
  exact ⟨h.ring.submit hne hfresh rq, h.phase.mono hgrows, h.unconnected⟩

/-- A response ends its request. -/
theorem Sound.fetch (h : Sound s) {cmdR : AtddCmdReturn} (hmem : cmdR.ident ∈ s.inFlight)
    (rq : Option BlkRequest) (pendingCompletedPos : UInt8) :
    Sound (finishCompletedRequest
      { s with pendingCompletedPos, inFlight := s.inFlight.erase cmdR.ident } cmdR rq) := by
  obtain ⟨p, rq', hfind, hcontent, hident, hring⟩ := h.ring.finish hmem
  have hout : (⟨cmdR.ident, some rq'⟩ : AtddRequest) = s.requestsBuf p := by
    rw [← hident, ← hcontent]
  simp only [finishCompletedRequest, hfind, hcontent, hout]
  refine ⟨?_, trivial, fun hconn => ?_⟩
  · have hended : endedSerials s ++ [rq'.serial] = (s.ended ++ [endRequest cmdR rq']).map fun e => e.rq.serial := by
      rw [List.map_append]
      rfl
    rw [hended] at hring
    exact hring
  · rw [h.unconnected hconn] at hmem
    exact absurd hmem List.not_mem_nil

/-- Everything is to be sent again, when no response is to come. -/
theorem Sound.sendAgain (h : Sound s) (hnone : s.inFlight = []) (error : Bool) {phase : Phase}
    (hphase : ∀ n, phase.Fits n) : Sound { sendAgain s with error, phase } := by
  refine ⟨?_, hphase _, h.unconnected⟩
  simp only [Driver.sendAgain, hnone]
  exact h.ring.again

/-- A turn of the loop that sends. -/
theorem Sound.send (h : Sound s) {cmdsToSend : ℕ} {outcome : SendOutcome}
    (hphase : s.phase = .sending (cmdsToSend + 1)) (hsettled : Settled s (.send outcome))
    (hsend : sendAcceptedRequest s cmdsToSend outcome = some s') : Sound s' := by
  have hfits : cmdsToSend + 1 ≤ gap s.bufTcpForwardedPos s.bufAcceptedPos := by
    have hfits := h.phase
    rw [hphase] at hfits
    exact hfits
  rw [gap_of_le h.ring.order] at hfits
  have hlt : gap s.bufCompletedPos s.bufTcpForwardedPos < gap s.bufCompletedPos s.bufAcceptedPos := by omega
  obtain ⟨rq, hrq, -⟩ := h.ring.content hlt
  rw [slot_gap] at hrq
  cases outcome with
  | sent =>
    simp only [sendAcceptedRequest, hrq, connect, Option.some_inj] at hsend
    subst hsend
    refine ⟨h.ring.forward hlt, ?_, by simp⟩
    have hring := h.ring.forward hlt
    have hgap : gap s.bufCompletedPos (s.bufTcpForwardedPos + 1) =
        gap s.bufCompletedPos s.bufTcpForwardedPos + 1 := gap_succ_of_lt hlt
    change cmdsToSend ≤ gap (s.bufTcpForwardedPos + 1) s.bufAcceptedPos
    rw [gap_of_le hring.order, hgap]
    omega
  | unprepared =>
    simp only [sendAcceptedRequest, hrq, Option.some_inj] at hsend
    subst hsend
    exact h.sendAgain (hsettled rfl) s.error fun _ => trivial
  | unconnected =>
    simp only [sendAcceptedRequest, hrq] at hsend
    split at hsend
    · cases hsend
    · rename_i hconn
      cases hsend
      exact h.sendAgain (h.unconnected (by simpa using hconn)) s.error fun _ => trivial
  | broken =>
    simp only [sendAcceptedRequest, hrq, Option.some_inj] at hsend
    subst hsend
    exact ⟨h.ring.again, trivial, fun _ => rfl⟩

/-- What one step has to respect: a submission finds the ring with a slot to spare and a new identifier, and
    nothing is to come when everything is sent again. -/
def Careful (s : Relay) (e : Event) : Prop := (e.isSubmit → Spare s ∧ Fresh s) ∧ Settled s e

/-- Every step that is careful keeps the relay in order. -/
theorem Stepped.sound (hs : Stepped s e s') (h : Sound s) (hcareful : Careful s e) : Sound s' := by
  cases hs with
  | refused rq hfull => exact h
  | submitted rq hroom =>
    obtain ⟨hspare, hfresh⟩ := hcareful.1 rfl
    exact h.submit hspare hfresh rq hroom
  | connectionError => exact ⟨h.ring, h.phase, h.unconnected⟩
  | lose ident =>
    refine ⟨h.ring.lose ident, h.phase, fun hconn => ?_⟩
    simp [h.unconnected hconn]
  | wake received => exact ⟨h.ring, trivial, h.unconnected⟩
  | error herror => exact h.sendAgain (hcareful.2 herror) false fun _ => trivial
  | noError => exact ⟨h.ring, trivial, h.unconnected⟩
  | data received => exact ⟨h.ring, trivial, h.unconnected⟩
  | noData received => exact ⟨h.ring, trivial, h.unconnected⟩
  | fetch cmdR rq hphase hmem => exact h.fetch hmem rq _
  | fetchNone => exact ⟨h.ring, trivial, h.unconnected⟩
  | fetchError => exact h.sendAgain (hcareful.2 rfl) s.error fun _ => trivial
  | startSend => exact ⟨h.ring, Nat.min_le_left _ _, h.unconnected⟩
  | send outcome cmdsToSend s' hphase hsend => exact h.send hphase hcareful.2 hsend
  | endSend => exact ⟨h.ring, trivial, h.unconnected⟩

end AtomicDisk.Driver
