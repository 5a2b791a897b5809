import AtomicDisk.Register.Tags
import AtomicDisk.Register.Panics
import AtomicDisk.Schemes.Endless

/-! Operations come to their end. An operation waits for a majority twice, and while it waits it has asked every
    process:

        READ_PROC to all ──▶ VALUE of a majority ──▶ WRITE_PROC to all ──▶ ACK of a majority ──▶ callback

    A process answers what it handles, and an answer that arrives is counted. So if all messages between the
    processes of some majority are handled at some time, in whatever order and with whatever else happening, the
    callback of an operation of one of them is invoked, provided that this process does not go down. -/

namespace AtomicDisk.Register
open Schemes Filter

/-- The message `c` of process `q` for operation `id`. -/
def msg (p : Params) (q : UInt8) (id : Uuid) (c : SystemRegisterCommandContent) : SystemRegisterCommand :=
  ⟨⟨q, id, p.sectorIdx⟩, c⟩

/-- In this step the message is handled, without a crash in the middle. -/
def Handles (m : SendMsg) (x : Step) : Prop := ∃ order, x.event = .systemCommand m.target m.cmd order none

variable {p : Params} {P : System → Event → Prop} {tr : Trace} {w : System} {x : Step} {m : SendMsg}
  {i q : UInt8} {id : Uuid} {r r' : AtomicRegisterState Uuid} {effs : List (Effect Uuid)}

/-- The handler has all its effects, or it panics. -/
theorem Handles.delivery (hs : step p x.pre x.event = some (x.post, x.out)) (h : Handles m x) :
    (∃ r r', Delivery p x m.target m.cmd r r' x.out ∧ (x.post.process m.target).register = some r' ∧
      (x.post.process m.target).pending = (x.pre.process m.target).pending.filter fun f => !answered f x.out) ∨
      (x.post.process m.target).register = none ∧ IsReply m.cmd := by
  obtain ⟨order, hev⟩ := h
  obtain ⟨w, e, es, w'⟩ := x
  obtain rfl : e = _ := hev
  cases hreg : (w.process m.target).register with
  | none => simp [step, hreg] at hs
  | some r =>
    simp only [step, hreg] at hs
    split at hs
    · rename_i hnet
      cases hcmd : systemCommand p.overflowChecks order r m.cmd with
      | none =>
        rw [hcmd] at hs
        obtain ⟨rfl, rfl⟩ := Prod.mk.inj (Option.some.inj hs)
        refine Or.inr ⟨by simp [perform], ?_⟩
        by_contra hnot
        have htotal : ∃ r' effs, systemCommand p.overflowChecks order r m.cmd = some (r', effs) :=
          systemCommand_total_of_not_reply hnot
        obtain ⟨r', effs, htotal⟩ := htotal
        rw [hcmd] at htotal
        cases htotal
      | some y =>
        rw [hcmd] at hs
        obtain ⟨rfl, rfl⟩ := Prod.mk.inj (Option.some.inj hs)
        refine Or.inl ⟨r, y.1, ⟨⟨order, none, rfl⟩, hreg, hnet, systemCommand_handled hcmd,
          ⟨_, conclude_concluded .., moved_of_perform rfl rfl rfl⟩, rfl⟩, ?_, ?_⟩
        · simp [perform, conclude]
        · simp [perform, conclude]
    · cases hs

theorem Handles.inNetwork (hs : step p x.pre x.event = some (x.post, x.out)) (h : Handles m x) :
    m ∈ x.pre.network := by
  obtain ⟨order, hev⟩ := h
  rw [hev, step] at hs
  split at hs
  · cases hs
  · split at hs
    · assumption
    · cases hs

/-- What a step sends is in the network. -/
theorem sent_inNetwork (hs : step p x.pre x.event = some (x.post, x.out)) (hm : m ∈ sent p x.out) :
    m ∈ x.post.network := by
  cases step_stepped hs with
  | client hi => rw [hi.network]; exact List.mem_append_right _ hm
  | system hd => rw [hd.network]; exact List.mem_append_right _ hm
  | restart hq => simp [hq.out, sent] at hm

/-! ### What is answered -/

/-- The message has been handled. -/
def Delivered (tr : Trace) (m : SendMsg) : Prop := ∃ x ∈ tr, Handles m x

theorem delivered_snoc : Delivered (tr ++ [x]) m ↔ Delivered tr m ∨ Handles m x := by
  simp [Delivered, or_and_right, exists_or]

/-- Every READ_PROC and every WRITE_PROC that has been handled has been answered. -/
structure Replied (p : Params) (tr : Trace) (w : System) : Prop where
  value : ∀ i id q, Delivered tr ⟨msg p i id .readProc, q⟩ →
    ∃ t wr d, ⟨msg p q id (.value t wr d), i⟩ ∈ w.network
  ack : ∀ i id q t wr d, Delivered tr ⟨msg p i id (.writeProc t wr d), q⟩ →
    ⟨msg p q id .ack, i⟩ ∈ w.network

/-- READ_PROC is answered by a VALUE, WRITE_PROC by an ACK. -/
theorem Handled.answers {oc : Bool} {h : SystemCommandHeader} {c : SystemRegisterCommandContent}
    (hh : Handled oc r h c r' effs) :
    (c = .readProc → .send ⟨⟨replyHeader r h, .value r.ts r.wr r.val⟩, h.processIdentifier⟩ ∈ effs) ∧
      ((∃ t wr d, c = .writeProc t wr d) → .send ⟨⟨replyHeader r h, .ack⟩, h.processIdentifier⟩ ∈ effs) := by
  cases hh <;> simp

/-- What the handler of a message that is not a reply answers is in the network. -/
theorem Handles.answers (hwf : WellFormed p tr x.pre) (hs : step p x.pre x.event = some (x.post, x.out))
    {c : SystemRegisterCommandContent} (h : Handles ⟨msg p i id c, q⟩ x) :
    (c = .readProc → ∃ t wr d, ⟨msg p q id (.value t wr d), i⟩ ∈ x.post.network) ∧
      ((∃ t wr d, c = .writeProc t wr d) → ⟨msg p q id .ack, i⟩ ∈ x.post.network) := by
  rcases h.delivery hs with ⟨r, r', hd, -⟩ | ⟨-, hreply⟩
  · have hself : r.selfIdent = q := (hwf.live _ _ hd.register).self
    have hsent : ∀ m, .send m ∈ x.out → m ∈ x.post.network := fun m hm =>
      sent_inNetwork hs (mem_sent.mpr (Or.inl hm))
    obtain ⟨hvalue, hack⟩ := hd.handled.answers
    simp only [replyHeader, hself] at hvalue hack
    exact ⟨fun hc => ⟨_, _, _, hsent _ (hvalue hc)⟩, fun hc => hsent _ (hack hc)⟩
  · constructor
    · rintro rfl
      simp [IsReply, msg] at hreply
    · rintro ⟨t, wr, d, rfl⟩
      simp [IsReply, msg] at hreply

theorem replied (hr : SystemRun p P tr w) : Replied p tr w := by
  refine hr.invariant ⟨by simp [Delivered], by simp [Delivered]⟩ ?_
  intro tr x hr ih _ hs
  have hnet := network_mono hs
  refine ⟨fun i id q h => ?_, fun i id q t wr d h => ?_⟩
  · rcases delivered_snoc.mp h with hold | hnew
    · obtain ⟨t, wr, d, hm⟩ := ih.value i id q hold
      exact ⟨t, wr, d, hnet _ hm⟩
    · exact (hnew.answers (wellFormed hr) hs).1 rfl
  · rcases delivered_snoc.mp h with hold | hnew
    · exact hnet _ (ih.ack i id q t wr d hold)
    · exact (hnew.answers (wellFormed hr) hs).2 ⟨t, wr, d, rfl⟩

/-- All messages are about the one sector. -/
theorem network_sector (hr : SystemRun p P tr w) : ∀ m ∈ w.network, m.cmd.header.sectorIdx = p.sectorIdx := by
  refine hr.invariant (I := fun _ w => ∀ m ∈ w.network, m.cmd.header.sectorIdx = p.sectorIdx) (by simp [init]) ?_
  intro tr x _ ih _ hs m hm
  cases step_stepped hs with
  | client hi =>
    rw [hi.network] at hm
    rcases List.mem_append.mp hm with hm | hm
    · exact ih m hm
    · obtain ⟨t, -, rfl⟩ := mem_sent_broadcast.mp (sent_mono hi.effects hm)
      exact hi.sectorIdx
  | system hd =>
    rw [hd.network] at hm
    rcases List.mem_append.mp hm with hm | hm
    · exact ih m hm
    · rw [(hd.handled.sends (sent_mono hd.effects hm)).1]
      exact ih _ hd.delivered
  | restart hq =>
    rw [hq.network] at hm
    exact ih m hm

/-! ### What is counted -/

/-- How far operation `id` of process `i` has come. -/
structure Waiting (p : Params) (tr : Trace) (w : System) (i : UInt8) (id : Uuid) (r : AtomicRegisterState Uuid) :
    Prop where
  asked : ∀ q ∈ targets p.processesCount, ⟨msg p i id .readProc, q⟩ ∈ w.network
  values : ∀ q t wr d, Delivered tr ⟨msg p q id (.value t wr d), i⟩ → r.writePhase = true ∨ q ∈ r.readlist.dom
  fewValues : ¬ Majority r r.readlist.len
  told : r.writePhase = true →
    ∃ t wr d, ∀ q ∈ targets p.processesCount, ⟨msg p i id (.writeProc t wr d), q⟩ ∈ w.network
  acks : ∀ q, Delivered tr ⟨msg p q id .ack, i⟩ → r.writePhase = true ∧ q ∈ r.acklist
  fewAcks : ¬ Majority r r.acklist.card

section handled

variable {oc : Bool} {h : SystemCommandHeader} {c : SystemRegisterCommandContent} {cmd : ClientRegisterCommand}
  {f : Uuid}

/-- Before and after the handler the register works on the same command. -/
structure Goes (r r' : AtomicRegisterState Uuid) : Prop where
  working : (r.reading || r.writing) = true
  callback : r'.callback ≠ none

theorem Handled.keeps_phase (hh : Handled oc r h c r' effs) (hg : Goes r r') (hon : r.writePhase = true) :
    r'.writePhase = true := by
  by_contra hoff
  exact hg.callback (hh.phase_falls hon (by simpa using hoff))

/-- What an operation that goes on keeps. -/
structure Advances (r r' : AtomicRegisterState Uuid) : Prop where
  phase : r.writePhase = true → r'.writePhase = true
  readlist : ∀ q ∈ r.readlist.dom, r'.writePhase = true ∨ q ∈ r'.readlist.dom
  acklist : r.writePhase = true → ∀ q ∈ r.acklist, q ∈ r'.acklist
  few : ¬ Majority r r.readlist.len → ¬ Majority r r.acklist.card →
    ¬ Majority r' r'.readlist.len ∧ ¬ Majority r' r'.acklist.card

theorem Advances.refl (r : AtomicRegisterState Uuid) : Advances r r :=
  ⟨fun hon => hon, fun _ hq => Or.inr hq, fun _ _ hq => hq, fun hvalues hacks => ⟨hvalues, hacks⟩⟩

/-- A VALUE that has been counted stays so until the write phase begins. -/
theorem Handled.keeps_readlist (hh : Handled oc r h c r' effs) (hq : q ∈ r.readlist.dom) :
    r'.writePhase = true ∨ q ∈ r'.readlist.dom := by
  cases hh with
  | valueRead | valueWrite => exact Or.inl rfl
  | valueCollect =>
    refine Or.inr (HashMap.mem_dom.mpr ?_)
    by_cases hk : q = h.processIdentifier
    · exact ⟨_, by rw [hk, collected, AList.lookup_insert]⟩
    · obtain ⟨v, hv⟩ := HashMap.mem_dom.mp hq
      exact ⟨v, by rw [collected, AList.lookup_insert_ne hk, hv]⟩
  | _ => exact Or.inr hq

/-- An ACK that has been counted stays so until the operation is completed. -/
theorem Handled.keeps_acklist (hh : Handled oc r h c r' effs) (hg : Goes r r') (hon : r.writePhase = true)
    (hq : q ∈ r.acklist) : q ∈ r'.acklist := by
  cases hh with
  | valueRead _ hoff | valueWrite _ hoff => simp [hon] at hoff
  | ackCollect => exact Finset.mem_insert_of_mem hq
  | ackRead | ackWrite => exact absurd rfl hg.callback
  | ackReadUnheard _ _ _ _ hcb => exact absurd hcb hg.callback
  | ackWriteUnheard _ _ _ _ _ hcb => exact absurd hcb hg.callback
  | _ => exact hq

/-- The VALUE of the operation is counted. -/
theorem Handled.counts_value {t : UInt64} {wr : UInt8} {d : SectorVec}
    (hh : Handled oc r h (.value t wr d) r' effs) (hop : r.opId = some h.msgIdent) :
    r'.writePhase = true ∨ h.processIdentifier ∈ r'.readlist.dom := by
  cases hh with
  | @valueStale _ _ _ id hid hstale =>
    obtain rfl : h.msgIdent = id := Option.some.inj (hop.symm.trans hid)
    exact Or.inl (hstale.resolve_left (by simp))
  | valueCollect => exact Or.inr (HashMap.mem_dom.mpr ⟨_, AList.lookup_insert _⟩)
  | valueRead | valueWrite => exact Or.inl rfl

/-- The ACK of the operation is counted. -/
theorem Handled.counts_ack (hh : Handled oc r h .ack r' effs) (hg : Goes r r') (hop : r.opId = some h.msgIdent)
    (hon : r.writePhase = true) : h.processIdentifier ∈ r'.acklist := by
  cases hh with
  | @ackStale id hid hstale =>
    obtain rfl : h.msgIdent = id := Option.some.inj (hop.symm.trans hid)
    simp [hon] at hstale
  | ackCollect => exact Finset.mem_insert_self ..
  | ackRead | ackWrite => exact absurd rfl hg.callback
  | ackReadUnheard _ _ _ _ hcb => exact absurd hcb hg.callback
  | ackWriteUnheard _ _ _ _ _ hcb => exact absurd hcb hg.callback

/-- A majority is not waited for any longer. -/
theorem Handled.keeps_few (hh : Handled oc r h c r' effs) (hg : Goes r r') (hvalues : ¬ Majority r r.readlist.len)
    (hacks : ¬ Majority r r.acklist.card) : ¬ Majority r' r'.readlist.len ∧ ¬ Majority r' r'.acklist.card := by
  have hempty : ¬ Majority r (∅ : HashMap UInt8 ReadEntry).len ∧ ¬ Majority r (∅ : Finset UInt8).card := by
    constructor
    · exact Nat.not_lt_zero _
    · exact Nat.not_lt_zero _
  cases hh with
  | valueCollect _ _ hquorum => exact ⟨fun hmaj => hquorum ⟨hmaj, hg.working⟩, hacks⟩
  | valueRead | valueWrite => exact hempty
  | ackCollect _ _ hquorum => exact ⟨hvalues, fun hmaj => hquorum ⟨hmaj, hg.working⟩⟩
  | ackRead | ackWrite => exact absurd rfl hg.callback
  | ackReadUnheard _ _ _ _ hcb => exact absurd hcb hg.callback
  | ackWriteUnheard _ _ _ _ _ hcb => exact absurd hcb hg.callback
  | _ => exact ⟨hvalues, hacks⟩

theorem Handled.advances (hh : Handled oc r h c r' effs) (hg : Goes r r') : Advances r r' :=
  ⟨hh.keeps_phase hg, fun _ => hh.keeps_readlist, fun hon _ => hh.keeps_acklist hg hon, hh.keeps_few hg⟩

end handled

/-- An operation that goes on is the one its process has been working on. -/
theorem Delivery.goes {cmd : SystemRegisterCommand} (hr : SystemRun p P tr x.pre)
    (hr' : SystemRun p P (tr ++ [x]) x.post) (hd : Delivery p x i cmd r r' x.out)
    (hpre : (x.pre.process i).pending = some id) (hpost : (x.post.process i).pending = some id)
    (hreg : (x.post.process i).register = some r') : r.opId = some id ∧ Goes r r' := by
  obtain ⟨hop, -, c, -, hworks⟩ := ((wellFormed hr).live i r hd.register).busy id hpre
  obtain ⟨-, hcb, -⟩ := ((wellFormed hr').live i r' hreg).busy id hpost
  refine ⟨hop, ?_, by simp [hcb]⟩
  rw [hworks.not_both]
  simp

/-- A message for the operation that is handled in the middle of it. -/
theorem Handles.goes {c : SystemRegisterCommandContent} (hr : SystemRun p P tr x.pre)
    (hr' : SystemRun p P (tr ++ [x]) x.post) (hs : step p x.pre x.event = some (x.post, x.out))
    (h : Handles ⟨msg p q id c, i⟩ x) (hpend : (x.post.process i).pending = some id)
    (hreg : (x.post.process i).register = some r') : ∃ r, Delivery p x i (msg p q id c) r r' x.out ∧
      (x.pre.process i).pending = some id ∧ r.opId = some id ∧ Goes r r' := by
  rcases h.delivery hs with ⟨r, r₁, hd, hreg₁, hpend₁⟩ | ⟨hnone, -⟩
  · obtain rfl : r₁ = r' := Option.some.inj (hreg₁.symm.trans hreg)
    have hpre : (x.pre.process i).pending = some id := by
      rw [hpend] at hpend₁
      exact (Option.filter_eq_some_iff.mp hpend₁.symm).1
    obtain ⟨hop, hg⟩ := hd.goes hr hr' hpre hpend hreg
    exact ⟨r, hd, hpre, hop, hg⟩
  · rw [hnone] at hreg
    cases hreg

/-- An ACK is there in the write phase only. -/
theorem phase_of_ack (hr : SystemRun p P tr w) (hm : ⟨msg p q id .ack, i⟩ ∈ w.network)
    (hpend : (w.process i).pending = some id) (hreg : (w.process i).register = some r) : r.writePhase = true := by
  by_contra hoff
  obtain ⟨j, t, wr, d, hwp, -⟩ := (evidence hr).ack q id ⟨_, hm, rfl, rfl, rfl⟩
  obtain ⟨y, hy, hpicks⟩ := (phases hr).writeProc j id t wr d hwp
  exact (phases hr).first i id r hpend hreg (by simpa using hoff) y hy ⟨j, t, wr, d, hpicks⟩

/-- Nothing has been handled for an operation that has not started. -/
theorem Delivered.started {c : SystemRegisterCommandContent} (hr : SystemRun p P tr w)
    (h : Delivered tr ⟨msg p q id c, i⟩) : id ∈ w.opIds := by
  obtain ⟨x, hx, hx'⟩ := h
  obtain ⟨l₁, l₂, rfl⟩ := List.append_of_mem hx
  obtain ⟨hrun, -, hs⟩ := hr.split rfl
  have hid : id ∈ x.pre.opIds := (evidence hrun).opId _ (hx'.inNetwork hs)
  obtain ⟨y, hy, hstart⟩ := (opIds_iff hrun id).mp hid
  exact (opIds_iff hr id).mpr ⟨y, List.mem_append_left _ hy, hstart⟩

theorem Waiting.start {cmd : ClientRegisterCommand} (hr : SystemRun p P tr x.pre)
    (hs : step p x.pre x.event = some (x.post, x.out)) (hi : Invocation p x i cmd id r)
    (hreg : (x.post.process i).register = some (clientCommand r cmd id id).1) :
    Waiting p (tr ++ [x]) x.post i id (clientCommand r cmd id id).1 := by
  have hnone : ∀ q c, ¬ Delivered (tr ++ [x]) ⟨msg p q id c, i⟩ := by
    intro q c h
    refine hi.fresh ?_
    rcases delivered_snoc.mp h with hold | hnew
    · exact hold.started hr
    · exact (evidence hr).opId _ (hnew.inNetwork hs)
  have hlive := (wellFormed hr).live i r hi.register
  obtain ⟨hread, hack⟩ := clientCommand_lists r cmd id id
  have hout : x.out = [.broadcast (msg p i id .readProc)] := by
    obtain ⟨reg, ⟨rfl, hout⟩ | ⟨rfl, -⟩, hm⟩ := hi.moved
    · rw [hout, clientCommand_effects, hlive.self, hi.sectorIdx, msg]
    · rw [hm.register] at hreg
      cases hreg
  refine ⟨fun q hq => ?_, fun q t wr d h => absurd h (hnone _ _), ?_, fun hon => ?_,
    fun q h => absurd h (hnone _ _), ?_⟩
  · refine sent_inNetwork hs ?_
    rw [hout]
    exact mem_sent_broadcast.mpr ⟨q, hq, rfl⟩
  · rw [hread]
    exact Nat.not_lt_zero _
  · rw [hi.idle] at hlive
    simp [hlive.isIdle.writePhase] at hon
  · rw [hack]
    exact Nat.not_lt_zero _

theorem Waiting.next (hr : SystemRun p P tr x.pre) (hr' : SystemRun p P (tr ++ [x]) x.post)
    (hs : step p x.pre x.event = some (x.post, x.out)) (h : Waiting p tr x.pre i id r)
    (hpend : (x.post.process i).pending = some id) (hreg : (x.post.process i).register = some r')
    (hadv : Advances r r') (htold : r.writePhase = false → r'.writePhase = true →
      ∃ t wr d, .broadcast (msg p i id (.writeProc t wr d)) ∈ x.out) : Waiting p (tr ++ [x]) x.post i id r' := by
  have hnet := network_mono hs
  refine ⟨fun q hq => hnet _ (h.asked q hq), fun q t wr d hdel => ?_, (hadv.few h.fewValues h.fewAcks).1,
    fun hon => ?_, fun q hdel => ?_, (hadv.few h.fewValues h.fewAcks).2⟩
  · rcases delivered_snoc.mp hdel with hold | hnew
    · rcases h.values q t wr d hold with hon | hq
      · exact Or.inl (hadv.phase hon)
      · exact hadv.readlist q hq
    · obtain ⟨r₀, hd, -, hop, -⟩ := hnew.goes hr hr' hs hpend hreg
      exact hd.handled.counts_value hop
  · cases hphase : r.writePhase with
    | true =>
      obtain ⟨t, wr, d, hm⟩ := h.told hphase
      exact ⟨t, wr, d, fun q hq => hnet _ (hm q hq)⟩
    | false =>
      obtain ⟨t, wr, d, hb⟩ := htold hphase hon
      refine ⟨t, wr, d, fun q hq => sent_inNetwork hs (mem_sent.mpr (Or.inr ⟨hb, hq⟩))⟩
  · rcases delivered_snoc.mp hdel with hold | hnew
    · obtain ⟨hon, hq⟩ := h.acks q hold
      exact ⟨hadv.phase hon, hadv.acklist hon q hq⟩
    · obtain ⟨r₀, hd, hpre, hop, hg⟩ := hnew.goes hr hr' hs hpend hreg
      have hon : r₀.writePhase = true := phase_of_ack hr hd.delivered hpre hd.register
      exact ⟨hd.handled.keeps_phase hg hon, hd.handled.counts_ack hg hop hon⟩

/-- Every operation that is not completed stands so. -/
theorem waiting (hr : SystemRun p P tr w) : ∀ i id r, (w.process i).pending = some id →
    (w.process i).register = some r → Waiting p tr w i id r := by
  refine hr.invariant (I := fun tr w => ∀ i id r, (w.process i).pending = some id →
    (w.process i).register = some r → Waiting p tr w i id r) (by simp [init]) ?_
  intro tr x hr ih hP hs i id r' hpend hreg
  have hr' : SystemRun p P (tr ++ [x]) x.post := hr.snoc hP hs
  rcases pending_after hs hpend with hsame | ⟨cmd, r, hi, hreg'⟩ | ⟨cmd, r, r₁, hd, hpre, hreg'⟩
  · have hwait := ih i id r' (hsame ▸ hpend) (hsame ▸ hreg)
    exact hwait.next hr hr' hs hpend hreg (Advances.refl r') fun hoff hon => by simp [hoff] at hon
  · obtain rfl := Option.some.inj (hreg'.symm.trans hreg)
    exact Waiting.start hr hs hi hreg
  · obtain rfl : r₁ = r' := Option.some.inj (hreg'.symm.trans hreg)
    obtain ⟨hop, hg⟩ := hd.goes hr hr' hpre hpend hreg
    refine (ih i id r hpre hd.register).next hr hr' hs hpend hreg (hd.handled.advances hg) fun hoff hon => ?_
    obtain ⟨hon', -⟩ | ⟨hid, t, wr, d, hb, -⟩ := hd.handled.phase_on hon
    · simp [hoff] at hon'
    · have hself := ((wellFormed hr).live i r hd.register).self
      have hsector := network_sector hr _ hd.delivered
      rw [hop] at hid
      refine ⟨t, wr, d, ?_⟩
      rwa [msg, Option.some.inj hid, ← hself, ← hsector]

/-! ### The operation completes -/

/-- A process that is up before and after a step has gone on with the command it had, or it had none. -/
theorem step_moved (hs : step p x.pre x.event = some (x.post, x.out)) :
    ∃ reg pend, Moved p x x.event.process reg pend x.out ∧
      (reg.isSome → (x.pre.process x.event.process).register.isSome →
        pend = (x.pre.process x.event.process).pending ∨ (x.pre.process x.event.process).pending = none) := by
  obtain ⟨w, e, es, w'⟩ := x
  cases e with
  | clientCommand i cmd uuid cut =>
    simp only [step] at hs
    split at hs
    · cases hs
    · split at hs
      · rename_i hguard
        obtain ⟨rfl, rfl⟩ := Prod.mk.inj (Option.some.inj hs)
        exact ⟨_, _, moved_of_perform rfl rfl rfl, fun _ _ => Or.inr hguard.2.1⟩
      · cases hs
  | systemCommand i cmd order cut =>
    simp only [step] at hs
    split at hs
    · cases hs
    · split at hs
      · split at hs
        · obtain ⟨rfl, rfl⟩ := Prod.mk.inj (Option.some.inj hs)
          exact ⟨_, _, moved_of_perform rfl rfl rfl, by simp⟩
        · obtain ⟨rfl, rfl⟩ := Prod.mk.inj (Option.some.inj hs)
          exact ⟨_, _, moved_of_perform rfl rfl rfl, fun _ _ => Or.inl rfl⟩
      · cases hs
  | crash i =>
    simp only [step] at hs
    split at hs
    · cases hs
    · obtain ⟨rfl, rfl⟩ := Prod.mk.inj (Option.some.inj hs)
      exact ⟨_, _, moved_of_perform rfl rfl rfl, by simp⟩
  | build i =>
    simp only [step] at hs
    split at hs
    · cases hs
    · rename_i hdown
      split at hs
      · obtain ⟨rfl, rfl⟩ := Prod.mk.inj (Option.some.inj hs)
        exact ⟨_, _, moved_of_perform rfl rfl rfl, fun _ hup => by simp [Event.process, hdown] at hup⟩
      · cases hs

/-- A process that stays up goes on with its operation until it invokes the callback. -/
theorem pending_stays (hs : step p x.pre x.event = some (x.post, x.out))
    (hpend : (x.pre.process i).pending = some id) (hpre : (x.pre.process i).register.isSome)
    (hpost : (x.post.process i).register.isSome) (hno : ∀ op, .callback id op ∉ x.out) :
    (x.post.process i).pending = some id := by
  obtain ⟨reg, pend, hm, hsame⟩ := step_moved hs
  by_cases hi : i = x.event.process
  · subst hi
    rw [hm.register] at hpost
    rcases hsame hpost hpre with rfl | hnone
    · rw [hm.pending, if_pos hpost, hpend, Option.filter_some, if_pos]
      rw [Bool.not_eq_true', answered, List.any_eq_false]
      intro e he
      cases e with
      | callback g op =>
        have hne : g ≠ id := by
          rintro rfl
          exact hno op he
        simpa using hne
      | _ => simp
    · simp [hnone] at hpend
  · rwa [hm.other i hi]

/-- All messages between processes of `A` are handled at some time. -/
def Fair (A : Finset UInt8) (σ : Stream' Step) : Prop :=
  ∀ n, ∀ m ∈ (σ.get n).pre.network, m.cmd.header.processIdentifier ∈ A → m.target ∈ A →
    ∃ k, Handles m (σ.get k)

section endless

variable {A : Finset UInt8} {σ : Stream' Step} {n : ℕ} {c : SystemRegisterCommandContent}

/-- A message that is in the network at some time has been handled from some time on. -/
theorem Fair.delivered (hfair : Fair A σ) (hq : q ∈ A) (hi : i ∈ A) (hm : ⟨msg p q id c, i⟩ ∈ (σ.get n).pre.network) :
    ∀ᶠ k in atTop, Delivered (σ.take k) ⟨msg p q id c, i⟩ :=
  eventually_done (hfair n _ hm hq hi)

/-- What process `q` of `A` is asked by process `i` it answers, and the answer is handled. -/
theorem Fair.value (hσ : Endless (step p) P (init p) σ) (hfair : Fair A σ) (hi : i ∈ A) (hq : q ∈ A)
    (hm : ⟨msg p i id .readProc, q⟩ ∈ (σ.get n).pre.network) :
    ∀ᶠ k in atTop, ∃ t wr d, Delivered (σ.take k) ⟨msg p q id (.value t wr d), i⟩ := by
  obtain ⟨k, hk⟩ := (hfair.delivered hi hq hm).exists
  obtain ⟨t, wr, d, hvalue⟩ := (replied (hσ.run k)).value i id q hk
  exact (hfair.delivered hq hi hvalue).mono fun _ h => ⟨t, wr, d, h⟩

theorem Fair.ack (hσ : Endless (step p) P (init p) σ) (hfair : Fair A σ) (hi : i ∈ A) (hq : q ∈ A) {t : UInt64}
    {wr : UInt8} {d : SectorVec} (hm : ⟨msg p i id (.writeProc t wr d), q⟩ ∈ (σ.get n).pre.network) :
    ∀ᶠ k in atTop, Delivered (σ.take k) ⟨msg p q id .ack, i⟩ := by
  obtain ⟨k, hk⟩ := (hfair.delivered hi hq hm).exists
  exact hfair.delivered hq hi ((replied (hσ.run k)).ack i id q t wr d hk)

/-- With the VALUE messages of a majority handled, the write phase has begun. -/
theorem Waiting.phase (h : Waiting p tr w i id r) (hcount : r.processesCount = p.processesCount)
    (hmaj : p.processesCount.toNat / 2 < A.card)
    (hall : ∀ q ∈ A, ∃ t wr d, Delivered tr ⟨msg p q id (.value t wr d), i⟩) : r.writePhase = true := by
  by_contra hoff
  refine h.fewValues ?_
  rw [Majority, hcount, HashMap.len_eq_card]
  refine lt_of_lt_of_le hmaj (Finset.card_le_card fun q hq => ?_)
  obtain ⟨t, wr, d, hdel⟩ := hall q hq
  exact (h.values q t wr d hdel).resolve_left hoff

/-- The ACK messages of a majority have not all been handled. -/
theorem Waiting.unacked (h : Waiting p tr w i id r) (hcount : r.processesCount = p.processesCount)
    (hmaj : p.processesCount.toNat / 2 < A.card) : ∃ q ∈ A, ¬ Delivered tr ⟨msg p q id .ack, i⟩ := by
  by_contra hall
  push Not at hall
  refine h.fewAcks ?_
  rw [Majority, hcount]
  exact lt_of_lt_of_le hmaj (Finset.card_le_card fun q hq => (h.acks q (hall q hq)).2)

/-- CORRECT (progress): the callback of an operation is invoked at some time, if its process stays up and all
    messages among some majority of processes with it are handled at some time. -/
theorem operation_completes (hσ : Endless (step p) P (init p) σ) (hA : A ⊆ processes p)
    (hmaj : p.processesCount.toNat / 2 < A.card) (hfair : Fair A σ) (hi : i ∈ A)
    (hup : ∀ k ≥ n, ((σ.get k).pre.process i).register.isSome)
    (hpend : ((σ.get n).pre.process i).pending = some id) :
    ∃ k ≥ n, ∃ op, .callback id op ∈ (σ.get k).out := by
  by_contra hno
  push Not at hno
  -- the operation would be waiting for ever
  have hwaits : ∀ k ≥ n, ∃ r, r.processesCount = p.processesCount ∧
      Waiting p (σ.take k) (σ.get k).pre i id r := by
    intro k hk
    have hpend : ((σ.get k).pre.process i).pending = some id := by
      refine hσ.stays (I := fun w => (w.process i).pending = some id) hpend (fun k hk hpend => ?_) hk
      refine pending_stays (hσ.steps k) hpend (hup k hk) ?_ (hno k hk)
      rw [← hσ.next]
      exact hup (k + 1) (by omega)
    obtain ⟨r, hreg⟩ := Option.isSome_iff_exists.mp (hup k hk)
    exact ⟨r, ((wellFormed (hσ.run k)).live i r hreg).count, waiting (hσ.run k) i id r hpend hreg⟩
  have htargets : ∀ q ∈ A, q ∈ targets p.processesCount := fun q hq => mem_processes.mp (hA hq)
  -- the first majority
  obtain ⟨r, hcount, hwait⟩ := hwaits n le_rfl
  have hvalues : ∀ᶠ k in atTop, ∀ q ∈ A, ∃ t wr d, Delivered (σ.take k) ⟨msg p q id (.value t wr d), i⟩ :=
    (eventually_all_finset A).mpr fun q hq => hfair.value hσ hi hq (hwait.asked q (htargets q hq))
  obtain ⟨k, hdel, hk⟩ := (hvalues.and (eventually_ge_atTop n)).exists
  obtain ⟨r, hcount, hwait⟩ := hwaits k hk
  obtain ⟨t, wr, d, htold⟩ := hwait.told (hwait.phase hcount hmaj hdel)
  -- the second one
  have hacks : ∀ᶠ l in atTop, ∀ q ∈ A, Delivered (σ.take l) ⟨msg p q id .ack, i⟩ :=
    (eventually_all_finset A).mpr fun q hq => hfair.ack hσ hi hq (htold q (htargets q hq))
  obtain ⟨l, hdel, hl⟩ := (hacks.and (eventually_ge_atTop n)).exists
  obtain ⟨r, hcount, hwait⟩ := hwaits l hl
  obtain ⟨q, hq, hnot⟩ := hwait.unacked hcount hmaj
  exact hnot (hdel q hq)

end endless

/-- A stale ACK changes nothing. -/
theorem step_stale_ack {cmd : SystemRegisterCommand} (hreg : (w.process i).register = some r)
    (hop : r.opId = some cmd.header.msgIdent) (hoff : r.writePhase = false) (hc : cmd.content = .ack)
    (hm : ⟨cmd, i⟩ ∈ w.network) : step p w (.systemCommand i cmd .asIs none) = some (w, []) := by
  have hcmd : systemCommand p.overflowChecks .asIs r cmd = some (r, []) := by
    simp [systemCommand, hc, onAck, hop, hoff]
  have hprocess : (⟨some r, (w.process i).sector, (w.process i).pending⟩ : Process) = w.process i := by rw [← hreg]
  have hsame : perform p w i (some r) (w.process i).pending [] = w := by
    simp [perform, sent, stored, filter_unanswered, hprocess]
  simp [step, hreg, hm, hcmd, conclude, hsame]

/-- Whether the message is handled in this step. -/
def isHandling (m : SendMsg) (x : Step) : Bool :=
  match x.event with
  | .systemCommand i cmd _ none => decide (i = m.target ∧ cmd = m.cmd)
  | _ => false

theorem handles_of_isHandling (h : isHandling m x = true) : Handles m x := by
  unfold isHandling at h
  split at h
  · rename_i i cmd order hev
    obtain ⟨rfl, rfl⟩ := of_decide_eq_true h
    exact ⟨order, hev⟩
  · cases h

set_option maxRecDepth 40000

/-- The processes of which one is to be down. -/
def threeInAll : Params := ⟨3, 0, true⟩

/-- Process 3 crashes, and process 1 reads. -/
def readWithoutThird : List Event :=
  [.crash 3, call 1 1 .read, deliver 1 1 1 .readProc, deliver 2 1 1 .readProc, deliver 1 1 1 (.value 0 0 .zeros),
    deliver 1 2 1 (.value 0 0 .zeros), deliver 1 1 1 (.writeProc 0 0 .zeros), deliver 2 1 1 (.writeProc 0 0 .zeros),
    deliver 1 1 1 .ack, deliver 1 2 1 .ack]

/-- What is to be seen of the run. -/
def settled (tr : Trace) (w : System) : Bool :=
  (w.process 1).register.any (fun r => decide (r.opId = some (uuid 1) ∧ r.writePhase = false)) &&
  decide (⟨⟨⟨1, uuid 1, 0⟩, .ack⟩, 1⟩ ∈ w.network) &&
  tr.all (fun x => (x.pre.process 1).register.isSome) &&
  tr.any (fun x => decide ((x.pre.process 1).pending = some (uuid 1)) && (x.pre.process 3).register.isNone) &&
  w.network.all (fun m => decide (m.target = 3) || tr.any (isHandling m))

/-- A late ACK for the read. -/
def staleAck (w : System) : Step := ⟨w, deliver 1 1 1 .ack, [], w⟩

/-- The read completes, whatever is on its way to process 3. -/
theorem readWithoutThird_completes : ∃ σ : Stream' Step,
    Endless (step threeInAll) (fun _ _ => True) (init threeInAll) σ ∧ Fair {1, 2} σ ∧
      ∃ n, ((σ.get n).pre.process 3).register = none ∧ ∃ k ≥ n, ∃ op, .callback (uuid 1) op ∈ (σ.get k).out := by
  obtain ⟨tr, w, hr, hobs⟩ := run_of_events threeInAll (fun _ _ => True) readWithoutThird settled (by decide +kernel)
  simp only [settled, Bool.and_eq_true, Option.any_eq_true, decide_eq_true_eq, List.all_eq_true, List.any_eq_true,
    Bool.or_eq_true, Option.isNone_iff_eq_none] at hobs
  obtain ⟨⟨⟨⟨⟨r, hreg, hop, hoff⟩, hm⟩, hup⟩, x, hx, hpend, hdown⟩, hall⟩ := hobs
  have hσ : Endless (step threeInAll) (fun _ _ => True) (init threeInAll) (tr ++ₛ Stream'.const (staleAck w)) :=
    hr.endless (endless_const trivial (step_stale_ack hreg hop hoff rfl hm))
  have hfair : Fair {1, 2} (tr ++ₛ Stream'.const (staleAck w)) := by
    intro n m hm hsource htarget
    have hlast : m ∈ w.network :=
      hσ.at_last (I := fun w => m ∈ w.network) (fun k => network_mono (hσ.steps k) m) hm
    have hne : m.target ≠ 3 := by
      intro heq
      simp [heq] at htarget
    obtain ⟨x, hx, hhandles⟩ := (hall m hlast).resolve_left hne
    obtain ⟨k, rfl⟩ := get_of_mem hx (Stream'.const (staleAck w))
    exact ⟨k, handles_of_isHandling hhandles⟩
  obtain ⟨n, rfl⟩ := get_of_mem hx (Stream'.const (staleAck w))
  refine ⟨_, hσ, hfair, n, hdown,
    operation_completes hσ (by decide) (by decide) hfair (by decide) (fun k _ => ?_) hpend⟩
  rcases get_followed tr (staleAck w) k with hk | hk
  · exact hup _ hk
  · rw [hk]
    simp [staleAck, hreg]

end AtomicDisk.Register
