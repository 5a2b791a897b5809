import AtomicDisk.Client.RegisterClient

/-! What the register client loses (`handle_retransmission` of `register_client.rs`). A write that fails
    drops its message from the connection queue, and the only other copy is the one the retransmission
    task answers for. That copy is safe while it waits in the queue of the task and while it is in the
    slot; it is given up when the next message of the queue takes the slot.

        retransmission queue        slot           connection queue
        [m₂, m₁]                     –              [m₂, m₁]
        [m₂]                         m₁             [m₂]               the write of m₁ has failed
        []                           m₂             [m₂]               m₁ is nowhere -/

namespace AtomicDisk.Client
open Schemes

variable {α : Type} {c : RegisterClientState} {w w' : World α} {e : Event α} {o : Unit}
  {selfIdent n t : UInt8} {tr : Trace α} {m : α}

/-! ### From a call to the queues -/

/-- The event is a call that is given `m` for process `t`. -/
def Passes (t : UInt8) (m : α) : Event α → Prop
  | .send cmd target => cmd = m ∧ target = t
  | .broadcast cmd => cmd = m
  | _ => False

/-- The message is in both queues, or a call has still to put it into the second. -/
def InHand (t : UInt8) (m : α) (w : World α) : Prop :=
  m ∈ (w.links t).passed ∨ ∃ ps ∈ w.calls, ⟨.retransmission t, m⟩ ∈ ps

theorem Stepped.passed_subset {k k' : Link α} (h : Stepped t k e k') : k.passed ⊆ k'.passed := by
  cases h with
  | pass => exact List.subset_append_left ..
  | _ => exact List.Subset.refl _

/-- A call only goes on by a step of its own. -/
theorem calls_subset (hs : step c w e = some (w', o)) (he : ∀ i, e ≠ .push i) : w.calls ⊆ w'.calls := by
  cases e with
  | push i => exact absurd rfl (he i)
  | send cmd target =>
    obtain ⟨ps, -, hw⟩ := Option.map_eq_some_iff.mp hs
    obtain ⟨rfl, -⟩ := Prod.mk.inj hw
    exact List.subset_append_left ..
  | broadcast cmd =>
    obtain ⟨ps, -, hw⟩ := Option.map_eq_some_iff.mp hs
    obtain ⟨rfl, -⟩ := Prod.mk.inj hw
    exact List.subset_append_left ..
  | tick t =>
    obtain ⟨rfl, -⟩ := Prod.mk.inj (Option.some.inj hs)
    exact List.Subset.refl _
  | write | take | selfReceive =>
    simp only [step] at hs
    split at hs
    · simp at hs
    · obtain ⟨rfl, -⟩ := Prod.mk.inj (Option.some.inj hs)
      exact List.Subset.refl _

/-- The call that goes on: what it has still to send, it has sent now or will send later. -/
theorem InHand.push {i : ℕ} {p : Push α} {rest ps : List (Push α)} (hi : w.calls[i]? = some (p :: rest))
    (hps : ps ∈ w.calls) (hm : ⟨.retransmission t, m⟩ ∈ ps) :
    InHand t m { w.enqueue p with calls := w.calls.set i rest } := by
  obtain ⟨j, hj⟩ := List.getElem?_of_mem hps
  rcases eq_or_ne i j with rfl | hij
  · obtain rfl : p :: rest = ps := Option.some.inj (hi.symm.trans hj)
    rcases List.mem_cons.mp hm with rfl | hm
    · left
      simp [World.enqueue, World.setLink_same]
    · have hset : (w.calls.set i rest)[i]? = some rest := getElem?_set_of hi
      exact Or.inr ⟨rest, List.mem_of_getElem? hset, hm⟩
  · have hset : (w.calls.set i rest)[j]? = some ps := by rw [List.getElem?_set_ne hij, hj]
    exact Or.inr ⟨ps, List.mem_of_getElem? hset, hm⟩

theorem InHand.next (h : InHand t m w) (hs : step c w e = some (w', o)) : InHand t m w' := by
  rcases h with hp | ⟨ps, hps, hm⟩
  · exact Or.inl ((step_stepped hs t).passed_subset hp)
  · by_cases he : ∀ i, e ≠ .push i
    · exact Or.inr ⟨ps, calls_subset hs he hps, hm⟩
    · simp only [ne_eq, not_forall, not_not] at he
      obtain ⟨i, rfl⟩ := he
      simp only [step] at hs
      split at hs
      · rename_i hi
        obtain ⟨rfl, -⟩ := Prod.mk.inj (Option.some.inj hs)
        exact InHand.push hi hps hm
      · simp at hs

theorem Passes.inHand (h1 : 1 ≤ t) (hn : t ≤ n) (ht : t ≠ selfIdent) (h : Passes t m e)
    (hs : step (.new selfIdent n) w e = some (w', o)) : InHand t m w' := by
  cases e with
  | send cmd target =>
    obtain ⟨rfl, rfl⟩ := h
    obtain ⟨ps, hps, hw⟩ := Option.map_eq_some_iff.mp hs
    obtain ⟨rfl, -⟩ := Prod.mk.inj hw
    obtain rfl := Option.some.inj ((send_eq h1 hn ht).symm.trans hps)
    exact Or.inr ⟨_, List.mem_append_right _ (List.mem_singleton_self _), by simp⟩
  | broadcast cmd =>
    obtain rfl : cmd = m := h
    obtain ⟨ps, hps, hw⟩ := Option.map_eq_some_iff.mp hs
    obtain ⟨rfl, -⟩ := Prod.mk.inj hw
    have hsub := send_subset_sendAll hps (mem_targets.mpr ⟨h1, hn⟩) (send_eq h1 hn ht)
    exact Or.inr ⟨_, List.mem_append_right _ (List.mem_singleton_self _), hsub (by simp)⟩
  | push | write | tick | take | selfReceive => exact h.elim

/-- What `send` or `broadcast` is given for another process is in hand from the call on. -/
theorem inHand {P : World α → Event α → Prop} (h : ClientRun selfIdent n P tr w) (h1 : 1 ≤ t) (hn : t ≤ n)
    (ht : t ≠ selfIdent) : ∀ x ∈ tr, Passes t m x.event → InHand t m w := by
  refine Run.invariant (I := fun tr w => ∀ x ∈ tr, Passes t m x.event → InHand t m w) ?_ ?_ h
  · simp
  · intro tr x _ ih _ hs y hy hpass
    rcases List.mem_append.mp hy with hy | hy
    · exact (ih y hy hpass).next hs
    · obtain rfl := List.mem_singleton.mp hy
      exact hpass.inHand h1 hn ht hs

/-! ### Loss -/

/-- Every message passed so far has been written, or is in a queue or the slot. -/
def NothingLost (k : Link α) : Prop :=
  ∀ m ∈ k.passed, m ∈ k.written ∨ m ∈ k.connection ∨ m ∈ k.retransmission ∨ m ∈ k.held

instance [DecidableEq α] (k : Link α) : Decidable (NothingLost k) :=
  inferInstanceAs (Decidable (∀ m ∈ k.passed, _))

/-- The retransmission task gives up the message in its slot only if that message has been written, or
    comes again in its queue. -/
def Releases (w : World α) : Event α → Prop
  | .take t => ∀ m ∈ (w.links t).held, m ∈ (w.links t).written ∨ m ∈ (w.links t).retransmission
  | _ => True

instance [DecidableEq α] (w : World α) : (e : Event α) → Decidable (Releases w e)
  | .take t => inferInstanceAs (Decidable (∀ m ∈ (w.links t).held, _))
  | .send .. | .broadcast _ | .push _ | .write .. | .tick _ | .selfReceive => isTrue trivial

/-- What the retransmission task answers for: all that has been passed and is not written is in its queue
    or its slot, and nothing else is. -/
structure Stubborn (k : Link α) : Prop where
  kept : ∀ m ∈ k.passed, m ∈ k.written ∨ m ∈ k.retransmission ∨ m ∈ k.held
  known : ∀ m, m ∈ k.retransmission ∨ m ∈ k.held → m ∈ k.passed

theorem Stubborn.nothingLost {k : Link α} (h : Stubborn k) : NothingLost k := by
  intro m hm
  rcases h.kept m hm with hw | hr | hh
  · exact Or.inl hw
  · exact Or.inr (Or.inr (Or.inl hr))
  · exact Or.inr (Or.inr (Or.inr hh))

/-- A step that releases nothing too early. -/
theorem Stubborn.next {k' : Link α} (h : Stubborn (w.links t)) (hP : Releases w e)
    (hs : Stepped t (w.links t) e k') : Stubborn k' := by
  obtain ⟨hkept, hknown⟩ := h
  cases hs with
  | same => exact ⟨hkept, hknown⟩
  | push m => exact ⟨hkept, hknown⟩
  | tick => exact ⟨hkept, hknown⟩
  | write =>
    refine ⟨fun m hm => (hkept m hm).imp_left fun hw => ?_, hknown⟩
    dsimp only
    split
    · exact List.mem_append_left _ hw
    · exact hw
  | pass m' =>
    refine ⟨fun m hm => ?_, fun m hm => ?_⟩
    · rcases List.mem_append.mp hm with hm | hm
      · exact (hkept m hm).imp_right (Or.imp_left (List.mem_append_left _))
      · exact Or.inr (Or.inl (List.mem_append_right _ hm))
    · rcases hm with hm | hm
      · exact List.mem_append.mpr ((List.mem_append.mp hm).imp_left fun hm => hknown m (Or.inl hm))
      · exact List.mem_append_left _ (hknown m (Or.inr hm))
  | @take m' queue hq =>
    -- the first of the queue moves to the slot; what was there is written, or still in the queue
    have hqueue : ∀ m ∈ (w.links t).retransmission, m ∈ queue ∨ m ∈ some m' := by
      intro m hm
      rw [hq] at hm
      rcases List.mem_cons.mp hm with rfl | hm
      · exact Or.inr rfl
      · exact Or.inl hm
    refine ⟨fun m hm => ?_, fun m hm => hknown m (Or.inl ?_)⟩
    · rcases hkept m hm with hw | hr | hh
      · exact Or.inl hw
      · exact Or.inr (hqueue m hr)
      · exact (hP m hh).imp_right (hqueue m)
    · rw [hq]
      rcases hm with hm | hm
      · exact List.mem_cons_of_mem _ hm
      · obtain rfl : m' = m := Option.some.inj hm
        exact List.mem_cons_self ..

theorem stubborn (h : ClientRun selfIdent n Releases tr w) (t : UInt8) : Stubborn (w.links t) := by
  refine Run.invariant (I := fun _ w => Stubborn (w.links t)) ?_ ?_ h
  · exact ⟨by simp [init], by simp [init]⟩
  · intro tr x _ ih hP hs
    exact ih.next hP (step_stepped hs t)

/-- The writes of all that is in a connection queue fail. -/
theorem exec_failing (c : RegisterClientState) (t : UInt8) : ∀ (queue : List α) (w : World α),
    (w.links t).connection = queue → ∃ tr w',
      exec (step c) w (List.replicate queue.length (.write t false)) = some (tr, w') ∧
        w'.links t = { w.links t with connection := [] }
  | [], w, h => ⟨[], w, rfl, by rw [← h]⟩
  | m :: queue, w, h => by
    have hs : step c w (.write t false) =
        some (w.setLink t { w.links t with connection := queue }, ()) := by
      simp only [step, h, Bool.false_eq_true, if_false]
    obtain ⟨tr, w', hex, hw⟩ := exec_failing c t queue (w.setLink t { w.links t with connection := queue })
      (by rw [World.setLink_same])
    refine ⟨_, w', by rw [List.length_cons, List.replicate_succ, exec, hs]; simp only [hex]; rfl, ?_⟩
    rw [hw, World.setLink_same]

/-- A slot that is given up too early: if the writes that are waiting fail, its message is lost. -/
theorem take_loses (h : Stubborn (w.links t)) (hs : step c w (.take t) = some (w', o))
    (hP : ¬ Releases w (.take t)) : ∃ k tr' w'',
      exec (step c) w' (List.replicate k (.write t false)) = some (tr', w'') ∧
        ¬ NothingLost (w''.links t) := by
  simp only [Releases, not_forall, not_or] at hP
  obtain ⟨m, hheld, hw, hr⟩ := hP
  simp only [step] at hs
  split at hs
  · simp at hs
  · rename_i m' queue hq
    obtain ⟨rfl, -⟩ := Prod.mk.inj (Option.some.inj hs)
    obtain ⟨tr', w'', hex, hlink⟩ := exec_failing c t _ _ rfl
    refine ⟨_, tr', w'', hex, fun hlost => ?_⟩
    rw [hlink, World.setLink_same] at hlost
    rw [hq, List.mem_cons, not_or] at hr
    rcases hlost m (h.known m (Or.inr hheld)) with hm | hm | hm | hm
    · exact hw hm
    · simp at hm
    · exact hr.2 hm
    · exact hr.1 (Option.some.inj hm).symm

/-- CORRECT (no message is lost as long as the slot is not given up too early): for every sequence of
    messages passed to `send` and `broadcast`, every schedule and every outcome of the writes, if the
    retransmission task takes its next message only when the one it holds has been written or comes
    again, then no message is lost on any link. No weaker rule will do: after a step against it, failures
    of the writes still waiting lose the message. -/
theorem nothing_lost (h : ClientRun selfIdent n Releases tr w) (t : UInt8) :
    ((∀ m, (∃ x ∈ tr, Passes t m x.event) → 1 ≤ t → t ≤ n → t ≠ selfIdent → InHand t m w) ∧
      NothingLost (w.links t)) ∧
    ∀ w' o, step (.new selfIdent n) w (.take t) = some (w', o) → ¬ Releases w (.take t) →
      ∃ k tr' w'', exec (step (.new selfIdent n)) w' (List.replicate k (.write t false)) = some (tr', w'') ∧
        ¬ NothingLost (w''.links t) := by
  refine ⟨⟨?_, (stubborn h t).nothingLost⟩, fun w' o hs hP => take_loses (stubborn h t) hs hP⟩
  rintro m ⟨x, hx, hpass⟩ h1 hn ht
  exact inHand h h1 hn ht x hx hpass

/-- A READ_PROC of an operation, for concrete runs. -/
def readProc (n : UInt8) : SystemRegisterCommand := ⟨⟨1, uuid n, 0⟩, .readProc⟩

/-- One message is written, a second is passed and its write fails, and it stays in the slot. -/
theorem nothing_lost_retransmitted : ∃ tr w, ClientRun 1 3 Releases tr w ∧ NothingLost (w.links 2) ∧
    (w.links 2).passed = [readProc 1, readProc 2] ∧ (w.links 2).written = [readProc 1] ∧
      (w.links 2).connection = [] := by
  have hrun := Run.exists_of_exec (step (.new 1 3)) Releases init
    [.broadcast (readProc 1), .push 0, .push 0, .push 0, .push 0, .write 2 true, .take 2,
      .send (readProc 2) 2, .push 1, .push 1, .write 2 false, .take 2]
    (fun _ w => (w.links 2).passed = [readProc 1, readProc 2] ∧ (w.links 2).written = [readProc 1] ∧
      (w.links 2).connection = []) (by decide +kernel)
  obtain ⟨tr, w, h, hobs⟩ := hrun
  exact ⟨tr, w, h, (nothing_lost h 2).1.2, of_decide_eq_true hobs⟩

/-- Two messages are passed; the write of the first fails, and the second takes the slot from it. -/
theorem slot_overwritten : ∃ tr w, ClientRun (α := SystemRegisterCommand) 1 3 (fun _ _ => True) tr w ∧
    (w.calls.all (· = [])) ∧ readProc 1 ∈ (w.links 2).passed ∧ readProc 1 ∉ (w.links 2).written ∧
      readProc 1 ∉ (w.links 2).connection ∧ readProc 1 ∉ (w.links 2).retransmission ∧
        readProc 1 ∉ (w.links 2).held := by
  have hrun := Run.exists_of_exec (step (.new 1 3)) (fun _ _ => True) init
    [.send (readProc 1) 2, .push 0, .push 0, .send (readProc 2) 2, .push 1, .push 1, .write 2 false,
      .take 2, .take 2]
    (fun _ w => (w.calls.all (· = [])) ∧ readProc 1 ∈ (w.links 2).passed ∧
      readProc 1 ∉ (w.links 2).written ∧ readProc 1 ∉ (w.links 2).connection ∧
        readProc 1 ∉ (w.links 2).retransmission ∧ readProc 1 ∉ (w.links 2).held) (by decide +kernel)
  obtain ⟨tr, w, h, hobs⟩ := hrun
  exact ⟨tr, w, h, of_decide_eq_true hobs⟩

end AtomicDisk.Client
