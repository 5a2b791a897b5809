import AtomicDisk.Client.Destinations
import AtomicDisk.Cluster.Cluster
import AtomicDisk.Transfer.Framing

/-! Messages on their way. With `Q t m` for "message `m` has been sent to process `t`", every message is only
    where it is on its way to such a `t`: in the register client of its sender, in a stream to `t`, in the
    queues of `t` (`NodeBound`, `WiresBound`). A stream of a process holds whole messages, and behind the last
    of them possibly a part of one, if the write of it has failed:

        unread:   ▐ message ▐ message ▐ … ▐ mess        (writer failed)
                  ▐ message ▐ message ▐ … ▐             (writer connected) -/

namespace AtomicDisk.Cluster
open Schemes Register Transfer
open Process (Ticket)
open Storage (Ledger Call fileAt Newest)

variable {p : Config} {Q Q' : UInt8 → SystemRegisterCommand → Prop} {i t : UInt8} {n k : ℕ}
  {m : SystemRegisterCommand} {ms : List SystemRegisterCommand} {unread tail : List UInt8}

/-! ### Streams -/

theorem frame_read (h : Sized (.system m)) (rest : List UInt8) :
    deserializeRc p.hmac p.keys (frame p m ++ rest) = .ok ((.system m, true), rest) :=
  deserializeRc_serializeRc [] rest (.system m) (by decide) h

/-- A part of a message cannot be read. -/
theorem frame_cut (h : Sized (.system m)) (hk : k < (frame p m).length) :
    deserializeRc p.hmac p.keys ((frame p m).take k) = .error .unexpectedEof := by
  obtain ⟨body, hframe⟩ := Tampered.frame (h := p.hmac) (p := ⟨.system m, p.hmacSystemKey, h⟩)
    (m := frame p m) ⟨rfl, rfl⟩
  exact hframe.cut p.hmac p.keys hk

/-- Messages one behind the other. -/
def framesOf (p : Config) (ms : List SystemRegisterCommand) : List UInt8 := ms.flatMap (frame p)

/-- What is unread of a stream to process `t`: messages for it, and a part of one. -/
structure Carries (p : Config) (Q : UInt8 → SystemRegisterCommand → Prop) (t : UInt8) (unread : List UInt8)
    (ms : List SystemRegisterCommand) (tail : List UInt8) : Prop where
  split : unread = framesOf p ms ++ tail
  messages : ∀ m ∈ ms, Sized (.system m) ∧ Q t m
  part : ∃ m k, Sized (.system m) ∧ k < (frame p m).length ∧ tail = (frame p m).take k

theorem frame_pos (p : Config) (m : SystemRegisterCommand) : 0 < (frame p m).length := by
  rw [frame, serializeRc, List.length_append, finalize_length]
  exact Nat.add_pos_right _ (by decide)

theorem part_nil (p : Config) :
    ∃ m k, Sized (.system m) ∧ k < (frame p m).length ∧ ([] : List UInt8) = (frame p m).take k :=
  ⟨⟨⟨0, uuid 0, 0⟩, .ack⟩, 0, trivial, frame_pos .., rfl⟩

theorem carries_nil : Carries p Q t [] [] [] := ⟨rfl, by simp, part_nil p⟩

theorem Carries.imp (h : Carries p Q t unread ms tail) (himp : ∀ t m, Q t m → Q' t m) :
    Carries p Q' t unread ms tail :=
  ⟨h.split, fun m hm => ⟨(h.messages m hm).1, himp t m (h.messages m hm).2⟩, h.part⟩

/-- A message is written, or a part of it. -/
theorem Carries.write (h : Carries p Q t unread ms []) (hsized : Sized (.system m)) (hm : Q t m) :
    Carries p Q t (unread ++ frame p m) (ms ++ [m]) [] ∧
    (k < (frame p m).length → Carries p Q t (unread ++ (frame p m).take k) ms ((frame p m).take k)) := by
  refine ⟨⟨?_, forall_mem_snoc h.messages ⟨hsized, hm⟩, part_nil p⟩,
    fun hk => ⟨?_, h.messages, m, k, hsized, hk, rfl⟩⟩
  · simp [h.split, framesOf]
  · simp [h.split]

/-- What is read from a stream is its first message, with a valid tag. -/
theorem Carries.read (h : Carries p Q t unread ms tail) {x : RegisterCommand × Bool} {rest : List UInt8}
    (hread : deserializeRc p.hmac p.keys (unread.take k) = .ok (x, rest)) :
    ∃ m ms', ms = m :: ms' ∧ x = (.system m, true) ∧ Carries p Q t (rest ++ unread.drop k) ms' tail := by
  cases ms with
  | nil =>
    -- only a part of a message is there, and `take` leaves a part of it
    obtain ⟨m, k', hsized, hk', htail⟩ := h.part
    have hunread : unread.take k = (frame p m).take (min k k') := by
      rw [h.split, htail, framesOf, List.flatMap_nil, List.nil_append, List.take_take]
    rw [hunread, frame_cut hsized (lt_of_le_of_lt (min_le_right _ _) hk')] at hread
    cases hread
  | cons m ms =>
    obtain ⟨hsized, hm⟩ := h.messages m (List.mem_cons_self ..)
    have hunread : unread = frame p m ++ (framesOf p ms ++ tail) := by
      rw [h.split, framesOf, List.flatMap_cons, List.append_assoc, framesOf]
    rcases lt_or_ge k (frame p m).length with hlt | hge
    · rw [hunread, List.take_append_of_le_length hlt.le, frame_cut hsized hlt] at hread
      cases hread
    · have htake : unread.take k = frame p m ++ (framesOf p ms ++ tail).take (k - (frame p m).length) := by
        rw [hunread, List.take_append, List.take_of_length_le hge]
      rw [htake, frame_read hsized] at hread
      obtain ⟨rfl, rfl⟩ := Prod.mk.inj (Except.ok.inj hread)
      refine ⟨m, ms, rfl, rfl, ?_, fun m' hm' => h.messages m' (List.mem_cons_of_mem _ hm'), h.part⟩
      rw [hunread, List.drop_append, List.drop_of_length_le hge, List.nil_append, List.take_append_drop]

/-- The streams of processes hold messages for their targets; those that can be written to hold whole ones. -/
structure WiresBound (p : Config) (Q : UInt8 → SystemRegisterCommand → Prop) (wires : List Wire)
    (writers : UInt8 → UInt8 → Writer) : Prop where
  carries : ∀ (n : ℕ) r, wires[n]? = some r → r.source ≠ none → ∃ ms tail, Carries p Q r.target r.unread ms tail
  whole : ∀ i t n, writers i t = .connected n → ∃ r ms, wires[n]? = some r ∧ r.source = some i ∧
    r.target = t ∧ Carries p Q t r.unread ms []

variable {wires : List Wire} {writers writers' : UInt8 → UInt8 → Writer} {f : Wire → Wire} {r : Wire}

theorem WiresBound.imp (h : WiresBound p Q wires writers) (himp : ∀ t m, Q t m → Q' t m) :
    WiresBound p Q' wires writers := by
  refine ⟨fun n r hr hs => ?_, fun i t n hn => ?_⟩
  · obtain ⟨ms, tail, hc⟩ := h.carries n r hr hs
    exact ⟨ms, tail, hc.imp himp⟩
  · obtain ⟨r, ms, hr, hs, ht, hc⟩ := h.whole i t n hn
    exact ⟨r, ms, hr, hs, ht, hc.imp himp⟩

/-- A stream is opened, by a process or by a client. -/
theorem WiresBound.connect (h : WiresBound p Q wires writers) (source : Option UInt8) (t : UInt8)
    (hwriters : ∀ i t' n, writers' i t' = .connected n →
      writers i t' = .connected n ∨ n = wires.length ∧ source = some i ∧ t' = t) :
    WiresBound p Q (wires ++ [⟨source, t, [], true⟩]) writers' := by
  refine ⟨fun n r hr hs => ?_, fun i t' n hn => ?_⟩
  · rcases lt_or_ge n wires.length with hlt | hge
    · exact h.carries n r (by rwa [List.getElem?_append_left hlt] at hr) hs
    · obtain ⟨hn, rfl⟩ : n - wires.length = 0 ∧ _ = r := by
        simpa [List.getElem?_append_right hge, List.getElem?_singleton] using hr
      exact ⟨[], [], carries_nil⟩
  · rcases hwriters i t' n hn with hold | ⟨rfl, rfl, rfl⟩
    · obtain ⟨r, ms, hr, hs, ht, hc⟩ := h.whole i t' n hold
      have hlt := (List.getElem?_eq_some_iff.mp hr).1
      exact ⟨r, ms, by rwa [List.getElem?_append_left hlt], hs, ht, hc⟩
    · exact ⟨⟨some i, t', [], true⟩, [], by simp, rfl, rfl, carries_nil⟩

/-- One stream changes. -/
theorem WiresBound.modify (h : WiresBound p Q wires writers)
    (hsame : ∀ r, (f r).source = r.source ∧ (f r).target = r.target)
    (hwriters : ∀ i t n, writers' i t = .connected n → writers i t = .connected n)
    (hcarries : ∀ r, wires[n]? = some r → r.source ≠ none → ∃ ms tail, Carries p Q r.target (f r).unread ms tail)
    (hwhole : ∀ i t r, writers' i t = .connected n → wires[n]? = some r →
      ∃ ms, Carries p Q t (f r).unread ms []) : WiresBound p Q (wires.modify n f) writers' := by
  have hget : ∀ (n' : ℕ) r', (wires.modify n f)[n']? = some r' →
      ∃ r, wires[n']? = some r ∧ r' = if n = n' then f r else r := by
    intro n' r' hr'
    rw [List.getElem?_modify] at hr'
    obtain ⟨r, hr, rfl⟩ := Option.map_eq_some_iff.mp hr'
    exact ⟨r, hr, by split <;> rfl⟩
  refine ⟨fun n' r' hr' hs => ?_, fun i t n' hn' => ?_⟩
  · obtain ⟨r, hr, rfl⟩ := hget n' r' hr'
    split at hs
    · rename_i heq
      subst heq
      rw [if_pos rfl, (hsame r).2]
      exact hcarries r hr ((hsame r).1 ▸ hs)
    · rename_i hne
      rw [if_neg hne]
      exact h.carries n' r hr hs
  · obtain ⟨r, ms, hr, hs, ht, hc⟩ := h.whole i t n' (hwriters i t n' hn')
    rcases eq_or_ne n n' with rfl | hne
    · obtain ⟨ms', hc'⟩ := hwhole i t r hn' hr
      refine ⟨f r, ms', ?_, (hsame r).1.trans hs, (hsame r).2.trans ht, hc'⟩
      simp [hr]
    · refine ⟨r, ms, ?_, hs, ht, hc⟩
      simp [hr, hne]

/-! ### Processes -/

/-- The message in an effect. -/
def sentMessage {κ : Type} : Effect κ → Option SystemRegisterCommand
  | .send msg => some msg.cmd
  | .broadcast cmd => some cmd
  | _ => none

/-- What the effect sends has been sent. -/
def EffectFor (n : UInt8) (Q : UInt8 → SystemRegisterCommand → Prop) {κ : Type} : Effect κ → Prop
  | .send msg => Q msg.target msg.cmd
  | .broadcast cmd => ∀ t ∈ targets n, Q t cmd
  | _ => True

/-- The messages in process `i` are on their way to where they have been sent, and are at the worker of their
    sector. -/
structure NodeBound (Q : UInt8 → SystemRegisterCommand → Prop) (i : UInt8) (w : Node.World) : Prop where
  client : ∀ l, w.phase = .up l → Client.Bound i Q l.client
  queue : ∀ (j : SectorIdx) x, w.slot j.toNat = some x → ∀ m callback,
    (.system m, callback) ∈ x.worker.queue → m.header.sectorIdx = j ∧ Q i m
  place : ∀ (j : SectorIdx) x, w.slot j.toNat = some x → ∀ eff ∈ x.todo, ∀ m ∈ sentMessage eff,
    m.header.sectorIdx = j

variable {key : List UInt8} {w w' : Node.World} {e : Node.Event}

theorem NodeBound.imp (h : NodeBound Q i w) (himp : ∀ t m, Q t m → Q' t m) : NodeBound Q' i w :=
  ⟨fun l hl => (h.client l hl).imp himp,
    fun j x hx m callback hm => ⟨(h.queue j x hx m callback hm).1, himp i m (h.queue j x hx m callback hm).2⟩,
    h.place⟩

theorem nodeBound_init : NodeBound Q i Node.init := by
  refine ⟨by simp [Node.init], fun j x hx => ?_, fun j x hx => ?_⟩
  · cases hx
  · cases hx

/-- A handler answers for the sector of the command. -/
theorem handled_addressed {κ : Type} {oc : Bool} {r r' : AtomicRegisterState κ} {h : SystemCommandHeader}
    {c : SystemRegisterCommandContent} {effs : List (Effect κ)} (hh : Handled oc r h c r' effs) :
    ∀ eff ∈ effs, ∀ m ∈ sentMessage eff, m.header.sectorIdx = h.sectorIdx := by
  cases hh <;> simp [sentMessage, replyHeader]

theorem toNat_ofNat_sector {s : ℕ} (h : s < p.nSectors.toNat) : (UInt64.ofNat s).toNat = s :=
  UInt64.toNat_ofNat_of_lt' (h.trans p.nSectors.toNat_lt)

/-- The register client of a process takes what its workers have sent. -/
theorem client_bound (hs : Node.Stepped (p.node i) key w e w') (hmanned : Node.Manned (p.node i) w)
    (h : NodeBound Q i w)
    (hsends : ∀ (j : SectorIdx) x, w.slot j.toNat = some x → x.lags = false →
      ∀ eff ∈ x.todo, EffectFor p.processesCount Q eff) :
    ∀ l, w'.phase = .up l → Client.Bound i Q l.client := by
  cases hs with
  | @selfMessage dir l cmd queue tasks effs hqueue htask =>
    rintro _ ⟨⟩
    have hb := h.client l rfl
    exact ⟨hb.calls, hb.links, fun m hm => hb.self m (hqueue ▸ List.mem_cons_of_mem _ hm)⟩
  | @calls dir l s eff todo ev client hdead htodo hcall hnone hstep =>
    rintro _ ⟨⟩
    refine Client.bound_step (n := p.processesCount) (h.client l rfl) ?_ hstep
    have hlt : s < p.nSectors.toNat := hmanned.todo l rfl s (by simp [htodo])
    obtain ⟨k, hk⟩ := hmanned.worker (s := s) (by simp [htodo])
    have hslot : Node.World.slot ⟨dir, .up l⟩ (UInt64.ofNat s).toNat = some ⟨k, l.todo s, l.writing s⟩ := by
      rw [toNat_ofNat_sector hlt]
      exact Node.slot_of_worker hdead hk
    have hsend := hsends (.ofNat s) _ hslot
    rw [htodo] at hsend
    cases eff with
    | send msg =>
      obtain rfl := Option.some.inj hcall
      exact hsend rfl (.send msg) (List.mem_cons_self ..)
    | broadcast cmd =>
      obtain rfl := Option.some.inj hcall
      intro t h1 hn
      exact hsend rfl (.broadcast cmd) (List.mem_cons_self ..) t
        (mem_targets.mpr ⟨UInt8.le_iff_toNat_le.mp h1, UInt8.le_iff_toNat_le.mp hn⟩)
    | write | callback => cases hcall
  | @push dir l s i' client hdead hsome hstep =>
    rintro _ ⟨⟩
    exact Client.bound_step (n := p.processesCount) (e := .push i') (h.client l rfl) trivial hstep
  | @client dir l ev client hof hstep =>
    rintro _ ⟨⟩
    refine Client.bound_step (n := p.processesCount) (h.client l rfl) ?_ hstep
    cases ev with
    | send | broadcast => cases hof
    | _ => trivial
  | recovered =>
    rintro _ ⟨⟩
    exact Client.bound_init
  | @crash | @restart | @recover | @recoverPanics =>
    rintro _ ⟨⟩
  | @task dir l | @work dir l | @read dir l | @hangUp dir l | @begins dir l | @written dir l | @returns dir l
  | @callback dir l | @advance dir l | @fillPartly dir l | @panics dir l =>
    rintro _ ⟨⟩
    exact h.client l rfl

/-- The worker of a client command is that of its sector. -/
theorem client_sector {pc : Process.Config} {j : SectorIdx} {cmd : ClientRegisterCommand} {ticket : Ticket}
    {queue : List (RegisterCommand × Option Ticket)} {r : AtomicRegisterState Ticket}
    {running : Option Process.Running} {todo : List (Effect Ticket)} {writing : Option Call}
    (hmanned : Node.Manned pc w)
    (hx : w.slot j.toNat = some ⟨⟨(.client cmd, some ticket) :: queue, r, running⟩, todo, writing⟩) :
    ticket.cmd = cmd ∧ cmd.header.sectorIdx = j ∧ r.callback = none := by
  obtain ⟨dir, phase⟩ := w
  cases phase with
  | up l =>
    obtain ⟨-, hk, -⟩ := Node.slot_eq_some.mp hx
    obtain ⟨hcmd, hsector⟩ : ticket.cmd = cmd ∧ ticket.sector = j.toNat :=
      ((hmanned.tasks l rfl).placed _ _ hk).queue _ (List.mem_cons_self ..)
    subst hcmd
    exact ⟨rfl, UInt64.toNat_inj.mp hsector, ((hmanned.tasks l rfl).idle hk).callback⟩
  | recovering => cases hx
  | down => cases hx

/-- What a step leaves in the slot of a sector. -/
theorem slot_bound {j : SectorIdx} {x : Node.Slot} (hmanned : Node.Manned (p.node i) w) (h : NodeBound Q i w)
    (hread : ∀ c stream m rest, e = .read c stream →
      deserializeRc p.hmac p.keys stream = .ok ((.system m, true), rest) → Q i m)
    (hturn : Node.Turn (p.node i) p.hmacSystemKey w j.toNat e (w.slot j.toNat) (some x)) :
    (∀ m callback, (.system m, callback) ∈ x.worker.queue → m.header.sectorIdx = j ∧ Q i m) ∧
      ∀ eff ∈ x.todo, ∀ m ∈ sentMessage eff, m.header.sectorIdx = j := by
  have hold : ∀ y, w.slot j.toNat = some y →
      (∀ m callback, (.system m, callback) ∈ y.worker.queue → m.header.sectorIdx = j ∧ Q i m) ∧
        ∀ eff ∈ y.todo, ∀ m ∈ sentMessage eff, m.header.sectorIdx = j :=
    fun y hy => ⟨h.queue j y hy, h.place j y hy⟩
  generalize hx : w.slot j.toNat = x₀ at hturn hold
  cases hturn with
  | same => exact hold x rfl
  | running | begins | advance =>
    obtain ⟨hqueue, hplace⟩ := hold _ rfl
    exact ⟨hqueue, hplace⟩
  | @arrives _ k item todo writing harrives hsector =>
    obtain ⟨hqueue, hplace⟩ := hold _ rfl
    refine ⟨fun m callback hm => ?_, hplace⟩
    rcases List.mem_append.mp hm with hm | hm
    · exact hqueue m callback hm
    · obtain rfl := List.mem_singleton.mp hm
      refine ⟨UInt64.toNat_inj.mp hsector, ?_⟩
      cases harrives with
      | system hok => exact hread _ _ m _ rfl hok
      | self hup hself => exact (h.client _ hup).self m (hself ▸ List.mem_cons_self ..)
  | @client uuid order cmd ticket queue r =>
    obtain ⟨hqueue, -⟩ := hold _ rfl
    refine ⟨fun m callback hm => hqueue m callback (List.mem_cons_of_mem _ hm), ?_⟩
    obtain ⟨-, hsector, -⟩ := client_sector hmanned hx
    rw [clientCommand_effects]
    simpa [sentMessage] using hsector
  | @system uuid order cmd callback queue r r' effs hsys =>
    obtain ⟨hqueue, -⟩ := hold _ rfl
    refine ⟨fun m callback hm => hqueue m callback (List.mem_cons_of_mem _ hm), fun eff heff m hm => ?_⟩
    rw [handled_addressed (systemCommand_handled hsys) eff heff m hm]
    exact (hqueue cmd callback (List.mem_cons_self ..)).1
  | done | written =>
    obtain ⟨hqueue, hplace⟩ := hold _ rfl
    exact ⟨hqueue, fun eff heff => hplace eff (List.mem_cons_of_mem _ heff)⟩
  | starts => exact ⟨by simp [Node.bootWorker], by simp⟩

/-- A step of a process keeps its messages on their way. -/
theorem nodeBound_step {o : Unit} (hs : Node.step (p.node i) p.hmacSystemKey w e = some (w', o))
    (hkept : Node.Kept (p.node i) w) (h : NodeBound Q i w)
    (hread : ∀ c stream m rest, e = .read c stream →
      deserializeRc p.hmac p.keys stream = .ok ((.system m, true), rest) → Q i m)
    (hsends : ∀ (j : SectorIdx) x, w.slot j.toNat = some x → x.lags = false →
      ∀ eff ∈ x.todo, EffectFor p.processesCount Q eff) : NodeBound Q i w' := by
  have hstepped := Node.step_stepped hs
  obtain ⟨ledger, calls, hstored⟩ := hkept.stored
  have hslots : ∀ (j : SectorIdx) x, w'.slot j.toNat = some x →
      (∀ m callback, (.system m, callback) ∈ x.worker.queue → m.header.sectorIdx = j ∧ Q i m) ∧
        ∀ eff ∈ x.todo, ∀ m ∈ sentMessage eff, m.header.sectorIdx = j := by
    intro j x hx
    obtain ⟨d, hd, -⟩ := hkept.durable j
    rcases Node.slot_step hstored hkept.full hkept.manned hstepped hd with
      ⟨hturn, -⟩ | ⟨k, sector, todo, hren⟩
    · rw [hx] at hturn
      exact slot_bound hkept.manned h hread hturn
    · obtain rfl := Option.some.inj (hren.after.symm.trans hx)
      have hqueue := h.queue j _ hren.before
      have hplace := h.place j _ hren.before
      exact ⟨hqueue, hplace⟩
  exact ⟨client_bound hstepped hkept.manned h hsends, fun j x hx => (hslots j x hx).1,
    fun j x hx => (hslots j x hx).2⟩

end AtomicDisk.Cluster
