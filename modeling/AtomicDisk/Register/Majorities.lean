import AtomicDisk.Register.Copies

/-! No effect without a majority. Whatever an operation makes visible comes after more than half of the
    processes have taken part in it:

        start of o ──▶ READ_PROC of o handled ──▶ data of o stored,  ──▶ WRITE_PROC of o ──▶ callback
                       by more than N/2           WRITE_PROC of o         handled by          of o
                                                  broadcast               more than N/2

    for any order, duplication and loss of messages, and with crashes anywhere. -/

namespace AtomicDisk.Register
open Schemes

variable {p : Params} {P : System → Event → Prop} {tr l₁ l₂ : Trace} {w : System} {x : Step}
  {i wr : UInt8} {id : Uuid} {t : UInt64} {d : SectorVec}

/-- Since operation `id` started, more than half of the processes have handled its READ_PROC. -/
def ReadByMajority (p : Params) (tr : Trace) (id : Uuid) : Prop :=
  MajorityOf p fun q => ∃ y ∈ since id tr, HandlesReadProc q id y

/-- Since operation `id` started, more than half of the processes have handled its WRITE_PROC, each
    ending up with a tag that is not smaller than `t`. -/
def WrittenByMajority (p : Params) (tr : Trace) (id : Uuid) (t : Tag) : Prop :=
  MajorityOf p fun q => ∃ y ∈ since id tr, HandlesWriteProc q id t y

theorem since_append {l₁ : Trace} (l₂ : Trace) (hst : ∃ y ∈ l₁, starts id y = true) :
    ∀ y ∈ since id l₁, y ∈ since id (l₁ ++ l₂) := by
  intro y hy
  rw [since, after_append l₂ hst]
  exact List.mem_append_left _ hy

/-- An operation picks only after a majority has handled its READ_PROC. -/
theorem Picks.readByMajority (hr : SystemRun p P tr x.pre)
    (hs : step p x.pre x.event = some (x.post, x.out)) (hp : Picks i id t wr d x) :
    ReadByMajority p tr id := by
  obtain ⟨cmd, v, e, r, r', effs, hpk⟩ := hp.picked hs
  have hmaj := hpk.completes.majority hr hpk.delivery.register hpk.delivery.delivered hpk.value
  rw [hpk.ident] at hmaj
  exact hmaj.mono fun q ⟨e, _, hin⟩ => (evidence hr).value q id _ _ _ hin

/-- The same, seen from later on. -/
theorem Picks.readByMajority_of_mem (hr : SystemRun p P tr w) (hx : x ∈ tr)
    (hp : Picks i id t wr d x) : ReadByMajority p tr id := by
  obtain ⟨l₁, l₂, htr⟩ := List.append_of_mem hx
  obtain ⟨hrun, -, hs⟩ := hr.split htr
  obtain ⟨cmd, v, e, r, r', effs, hpk⟩ := hp.picked hs
  have hid := (evidence hrun).opId _ hpk.delivery.delivered
  rw [hpk.ident] at hid
  refine (hp.readByMajority hrun hs).mono fun q ⟨y, hy, hread⟩ => ⟨y, ?_, hread⟩
  rw [htr]
  exact since_append _ ((opIds_iff hrun id).mp hid) y hy

/-- What is issued is the data of a write that the process has started. -/
theorem Issues.started (hr : SystemRun p P tr x.pre)
    (hs : step p x.pre x.event = some (x.post, x.out)) (hi : Issues p i id t d x) :
    ∃ h, Started tr i id ⟨h, .write d⟩ := by
  obtain ⟨cmd, v, e, r, r', effs, hpk⟩ := hi.1.picked hs
  have hlive := (wellFormed hr).live i r hpk.delivery.register
  obtain ⟨-, -, ⟨h, content⟩, hst, hw⟩ := hlive.busy id (hpk.pending (wellFormed hr))
  rcases hpk.choice with ⟨hread, -⟩ | ⟨hread, -, -, -, rfl⟩
  · exact absurd (hpk.delivery.effects.subset hi.2) (hpk.readOnly hread _ _)
  · obtain rfl : content = .write r.writeval := hw.write hread
    exact ⟨h, hst⟩

theorem Issues.started_of_mem (hr : SystemRun p P tr w) (hx : x ∈ tr) (hi : Issues p i id t d x) :
    ∃ h, Started tr i id ⟨h, .write d⟩ := by
  obtain ⟨l₁, l₂, htr⟩ := List.append_of_mem hx
  obtain ⟨hrun, -, hs⟩ := hr.split htr
  obtain ⟨h, hst⟩ := hi.started hrun hs
  rw [htr]
  exact ⟨h, hst.append _⟩

/-- Before a WRITE_PROC is broadcast, a majority has handled the READ_PROC of its operation. -/
theorem broadcast_backed (hr : SystemRun p P tr x.pre)
    (hs : step p x.pre x.event = some (x.post, x.out)) {h : SystemCommandHeader}
    (hcast : .broadcast ⟨h, .writeProc t wr d⟩ ∈ x.out) : ReadByMajority p tr h.msgIdent := by
  cases step_stepped hs with
  | client hi => simpa using hi.effects.subset hcast
  | restart hq => rw [hq.out] at hcast; simp at hcast
  | @system i cmd r r' effs hd =>
    have hi := mem_processes.mp ((wellFormed hr).live i r hd.register).process
    have hsent : ⟨⟨h, .writeProc t wr d⟩, i⟩ ∈ sent p x.out := mem_sent.mpr (Or.inr ⟨hcast, hi⟩)
    obtain ⟨hhead, -⟩ := hd.handled.sends (sent_mono hd.effects hsent)
    obtain rfl : h = replyHeader r cmd.header := hhead
    exact (picks_of_sent hd hsent rfl).readByMajority hr hs

/-- Before a sector is stored, a majority has handled the READ_PROC of the operation of the message
    that makes the process store it. -/
theorem store_on_account (hr : SystemRun p P tr x.pre)
    (hs : step p x.pre x.event = some (x.post, x.out)) {idx : SectorIdx}
    {s : SectorVec × UInt64 × UInt8} (hmem : .write idx s ∈ x.out) :
    ∃ i cmd order cut, x.event = .systemCommand i cmd order cut ∧
      ReadByMajority p tr cmd.header.msgIdent := by
  cases step_stepped hs with
  | client hi => simpa using hi.effects.subset hmem
  | restart hq => rw [hq.out] at hmem; simp at hmem
  | @system i cmd r r' effs hd =>
    obtain ⟨order, cut, hev⟩ := hd.event
    refine ⟨i, cmd, order, cut, hev, ?_⟩
    rcases (hd.handled.stores (hd.effects.subset hmem)).2 with ⟨hc, -⟩ | ⟨hval, -⟩
    · obtain ⟨y, hy, hp⟩ := (phases hr).writeProc _ _ _ _ _ ⟨_, hd.delivered, rfl, rfl, hc⟩
      exact hp.readByMajority_of_mem hr hy
    · exact (issues_of_store (wellFormed hr) hd hval hmem).1.1.readByMajority hr hs

/-- The write whose data a step stores has started, and a majority has handled its READ_PROC. -/
theorem store_backed (hr : SystemRun p P tr x.pre)
    (hs : step p x.pre x.event = some (x.post, x.out)) {idx : SectorIdx}
    (hmem : .write idx (d, t, wr) ∈ x.out) :
    ∃ id h, Started tr wr id ⟨h, .write d⟩ ∧ ReadByMajority p tr id := by
  have hwf := wellFormed hr
  cases step_stepped hs with
  | client hi => simpa using hi.effects.subset hmem
  | restart hq => rw [hq.out] at hmem; simp at hmem
  | @system i cmd r r' effs hd =>
    rcases (hd.handled.stores (hd.effects.subset hmem)).2 with ⟨hc, hlt⟩ | ⟨hval, -⟩
    · rcases held_sourced hr (.writeProc hd.delivered hc) with ⟨rfl, rfl, rfl⟩ | ⟨y, hy, id, hiss⟩
      · exact absurd hlt (not_lt.mpr (tag_zero_le _ _))
      · obtain ⟨h, hst⟩ := hiss.started_of_mem hr hy
        exact ⟨id, h, hst, hiss.1.readByMajority_of_mem hr hy⟩
    · obtain ⟨hiss, hself⟩ := issues_of_store hwf hd hval hmem
      obtain ⟨h, hst⟩ := hiss.started hr hs
      obtain rfl : wr = i := hself
      exact ⟨_, h, hst, hiss.1.readByMajority hr hs⟩

/-- A callback is that of the uncompleted command; the operation has sent a WRITE_PROC, which a
    majority has handled, and a read returns the data it carries. -/
theorem callback_backed (hr : SystemRun p P tr x.pre)
    (hs : step p x.pre x.event = some (x.post, x.out)) {f : Uuid} {op : OperationSuccess}
    (hmem : .callback f op ∈ x.out) :
    ∃ i r cmd t wr d, (x.pre.process i).register = some r ∧ (x.pre.process i).pending = some f ∧
      Started tr i f cmd ∧ InNetwork x.pre i f (.writeProc t wr d) ∧
      WrittenByMajority p tr f (tag t wr) ∧
      (cmd.content = .read ∧ op.opReturn = .read d ∨
        (∃ data, cmd.content = .write data) ∧ op.opReturn = .write) := by
  have hwf := wellFormed hr
  cases step_stepped hs with
  | client hi => simpa using hi.effects.subset hmem
  | restart hq => rw [hq.out] at hmem; simp at hmem
  | @system i cmd r r' effs hd =>
    obtain ⟨hc, hop, hphase, hmaj, hcb, hret⟩ := hd.handled.calls (hd.effects.subset hmem)
    have hflag : (r.reading || r.writing) = true := by
      rcases hret with ⟨hread, -⟩ | ⟨-, hwrite, -⟩ <;> simp [*]
    obtain ⟨id, ccmd, hpend, hop', hcb', hst, hw⟩ := (hwf.live i r hd.register).working hflag
    obtain rfl : id = f := Option.some.inj (hcb'.symm.trans hcb)
    obtain rfl : id = cmd.header.msgIdent := Option.some.inj (hop'.symm.trans hop)
    obtain ⟨t, wr, d, hin, hval⟩ := (phases hr).second i _ r hpend hd.register hphase
    refine ⟨i, r, ccmd, t, wr, d, hd.register, hpend, hst, hin, ?_, ?_⟩
    · refine (acked_majority hr hd.register hd.delivered hc hop hmaj).mono fun q hack => ?_
      obtain ⟨j, t', wr', d', hin', y, hy, hwrite⟩ := (evidence hr).ack q _ hack
      obtain ⟨-, rfl, rfl, -⟩ := writeProc_unique hr hin hin'
      exact ⟨y, hy, hwrite⟩
    · rcases hret with ⟨hread, hop⟩ | ⟨hread, -, hop⟩
      · exact Or.inl ⟨hw.read hread, by rw [hop, hval hread]⟩
      · exact Or.inr ⟨⟨_, hw.write hread⟩, hop⟩

/-- CORRECT (no effect without a majority): in every run, at every step,
    (a) a WRITE_PROC is broadcast only after more than half of the processes have handled the
        READ_PROC of its operation since that started, and a sector is stored only after this holds
        both of the operation on whose account it is stored and of the write whose data it is;
    (b) a callback is invoked only after more than half of the processes have, since its operation
        started, handled the WRITE_PROC of the operation and then held a tag not smaller than the
        one it carried, and that is one tag for the whole operation. -/
theorem effects_need_majority (hr : SystemRun p (fun _ _ => True) tr w) (htr : tr = l₁ ++ x :: l₂) :
    (∀ h t wr d, .broadcast ⟨h, .writeProc t wr d⟩ ∈ x.out → ReadByMajority p l₁ h.msgIdent) ∧
    (∀ idx t wr d, .write idx (d, t, wr) ∈ x.out →
      (∃ i cmd order cut, x.event = .systemCommand i cmd order cut ∧
        ReadByMajority p l₁ cmd.header.msgIdent) ∧
      ∃ id h, Started l₁ wr id ⟨h, .write d⟩ ∧ ReadByMajority p l₁ id) ∧
    (∀ id op, .callback id op ∈ x.out → ∃ i t wr d, InNetwork x.pre i id (.writeProc t wr d) ∧
      (∀ i' t' wr' d', InNetwork x.pre i' id (.writeProc t' wr' d') →
        i' = i ∧ t' = t ∧ wr' = wr ∧ d' = d) ∧
      WrittenByMajority p l₁ id (tag t wr)) := by
  obtain ⟨hrun, -, hs⟩ := hr.split htr
  refine ⟨fun h t wr d hcast => broadcast_backed hrun hs hcast,
    fun idx t wr d hmem => ⟨store_on_account hrun hs hmem, store_backed hrun hs hmem⟩,
    fun id op hmem => ?_⟩
  obtain ⟨i, r, cmd, t, wr, d, -, -, -, hin, hmaj, -⟩ := callback_backed hrun hs hmem
  exact ⟨i, t, wr, d, hin, fun _ _ _ _ hin' => writeProc_unique hrun hin' hin, hmaj⟩

theorem answered_iff {f : Uuid} {es : List (Effect Uuid)} :
    answered f es = true ↔ ∃ op, .callback f op ∈ es := by
  simp only [answered, List.any_eq_true]
  constructor
  · rintro ⟨e, he, hf⟩
    cases e with
    | callback g op => obtain rfl := of_decide_eq_true hf; exact ⟨op, he⟩
    | _ => simp at hf
  · rintro ⟨op, hop⟩
    exact ⟨_, hop, by simp⟩

section run

-- sectors of 4096 bytes are compared byte by byte when a concrete run is replayed
set_option maxRecDepth 40000

/-- Three processes. -/
def threeProcesses : Params := ⟨3, 0, true⟩

/-- A read of process 1, from the client's command to its callback, with the quorums {1, 2} and {2, 3}. -/
def completedRead : List Event :=
  [call 1 1 .read,
   deliver 1 1 1 .readProc,
   deliver 2 1 1 .readProc,
   deliver 1 1 1 (.value 0 0 .zeros),
   deliver 1 2 1 (.value 0 0 .zeros),
   deliver 2 1 1 (.writeProc 0 0 .zeros),
   deliver 3 1 1 (.writeProc 0 0 .zeros),
   deliver 1 2 1 .ack,
   deliver 1 3 1 .ack]

/-- The callback of that read comes after a majority has handled its WRITE_PROC. -/
theorem completedRead_majority : ∃ l₁ x w, SystemRun threeProcesses (fun _ _ => True) (l₁ ++ [x]) w ∧
    (∃ op, .callback (uuid 1) op ∈ x.out) ∧ ∃ t, WrittenByMajority threeProcesses l₁ (uuid 1) t := by
  obtain ⟨tr, w, hr, hobs⟩ := run_of_events threeProcesses (fun _ _ => True) completedRead
    (fun tr _ => tr.getLast?.any fun x => answered (uuid 1) x.out) (by decide +kernel)
  rcases List.eq_nil_or_concat tr with rfl | ⟨l₁, x, rfl⟩
  · simp at hobs
  · rw [List.concat_eq_append] at hr hobs
    obtain ⟨op, hop⟩ : ∃ op, .callback (uuid 1) op ∈ x.out := answered_iff.mp (by simpa using hobs)
    obtain ⟨-, -, hcallback⟩ := effects_need_majority hr (rfl : l₁ ++ [x] = l₁ ++ x :: [])
    obtain ⟨i, t, wr, d, -, -, hmaj⟩ := hcallback (uuid 1) op hop
    exact ⟨l₁, x, w, hr, ⟨op, hop⟩, tag t wr, hmaj⟩

end run

end AtomicDisk.Register
