import AtomicDisk.Register.Invariants

/-! What the messages of a run prove about it. A register counts a VALUE or an ACK for the operation
    it names; `Evidence` says what each of them stands for: its sender has handled the READ_PROC, or
    the WRITE_PROC, of that operation after it started, and after the latter holds a tag that is not
    smaller than the one it was sent. Nothing here depends on the order of message delivery, on
    duplicates or on crashes, since messages and handled steps only accumulate. -/

namespace AtomicDisk.Register
open Schemes

variable {p : Params} {P : System → Event → Prop} {tr : Trace} {w w' : System}
  {es effs : List (Effect Uuid)} {oc : Bool} {r r' : AtomicRegisterState Uuid}
  {h : SystemCommandHeader} {c : SystemRegisterCommandContent} {m : SendMsg}

/-- A message of operation `id` from process `q` has been sent. -/
def InNetwork (w : System) (q : UInt8) (id : Uuid) (c : SystemRegisterCommandContent) : Prop :=
  ∃ m ∈ w.network, m.cmd.header.processIdentifier = q ∧ m.cmd.header.msgIdent = id ∧
    m.cmd.content = c

/-- In this step `q` handles the READ_PROC of operation `id`: it sends its VALUE. -/
def HandlesReadProc (q : UInt8) (id : Uuid) (x : Step) : Prop :=
  ∃ cmd order cut, x.event = .systemCommand q cmd order cut ∧ cmd.header.msgIdent = id ∧
    cmd.content = .readProc ∧ x.out ≠ []

/-- In this step `q` handles the WRITE_PROC of operation `id` that carries tag `t`, and ends up
    with a tag that is not smaller, in its storage and (unless it crashes) in its register. -/
def HandlesWriteProc (q : UInt8) (id : Uuid) (t : Tag)
    (x : Step) : Prop :=
  ∃ cmd order cut ts wr d, x.event = .systemCommand q cmd order cut ∧ cmd.header.msgIdent = id ∧
    cmd.content = .writeProc ts wr d ∧ tag ts wr = t ∧ t ≤ sectorTag (x.post.process q).sector ∧
    ∀ r, (x.post.process q).register = some r → t ≤ tag r.ts r.wr

/-! ### What a handler sends -/

theorem sent_append (p : Params) (a b : List (Effect Uuid)) : sent p (a ++ b) = sent p a ++ sent p b := by
  simp [sent]

theorem sent_mono (hes : es <+: effs) (hm : m ∈ sent p es) : m ∈ sent p effs := by
  obtain ⟨t, rfl⟩ := hes
  rw [sent_append]
  exact List.mem_append_left _ hm

theorem prefix_two {α : Type} {a b : α} {l : List α} (hl : l <+: [a, b]) :
    l = [] ∨ l = [a] ∨ l = [a, b] := by
  rcases l with _ | ⟨x, _ | ⟨y, l⟩⟩
  · exact Or.inl rfl
  · obtain rfl : x = a := by simpa using hl
    exact Or.inr (Or.inl rfl)
  · obtain ⟨rfl, rfl, rfl⟩ : x = a ∧ y = b ∧ l = [] := by simpa [List.cons_prefix_cons] using hl
    exact Or.inr (Or.inr rfl)

/-- A message is in the network because it was sent, or because its command was broadcast. -/
theorem mem_sent : m ∈ sent p es ↔
    .send m ∈ es ∨ .broadcast m.cmd ∈ es ∧ m.target ∈ targets p.processesCount := by
  simp only [sent, List.mem_flatMap]
  constructor
  · rintro ⟨e, he, hm⟩
    cases e with
    | send msg => obtain rfl := List.mem_singleton.mp hm; exact Or.inl he
    | broadcast cmd =>
      obtain ⟨t, ht, rfl⟩ := List.mem_map.mp hm
      exact Or.inr ⟨he, ht⟩
    | write | callback => simp at hm
  · rintro (he | ⟨he, ht⟩)
    · exact ⟨_, he, List.mem_singleton_self m⟩
    · exact ⟨_, he, List.mem_map.mpr ⟨m.target, ht, rfl⟩⟩

@[simp] theorem sent_nil : sent p [] = [] := rfl

@[simp] theorem mem_sent_send {msg : SendMsg} : m ∈ sent p [.send msg] ↔ m = msg := by simp [sent]

@[simp] theorem mem_sent_write {idx : SectorIdx} {s : SectorVec × UInt64 × UInt8} :
    m ∈ sent p (.write idx s :: es) ↔ m ∈ sent p es := by simp [sent]

@[simp] theorem mem_sent_broadcast {cmd : SystemRegisterCommand} :
    m ∈ sent p [.broadcast cmd] ↔ ∃ t ∈ targets p.processesCount, m = ⟨cmd, t⟩ := by
  simp [sent, eq_comm]

@[simp] theorem sent_callback {f : Uuid} {op : OperationSuccess} : sent p [.callback f op] = [] := rfl

/-- What a handler sends carries its own identity and the operation id of what it handles; READ_PROC
    is answered by VALUE, WRITE_PROC by ACK, and only VALUE can lead to a WRITE_PROC. -/
theorem Handled.sends (hh : Handled oc r h c r' effs) (hm : m ∈ sent p effs) :
    m.cmd.header = replyHeader r h ∧
      (c = .readProc ∧ m.cmd.content = .value r.ts r.wr r.val ∨
      (∃ t w d, c = .value t w d) ∧ (∃ t w d, m.cmd.content = .writeProc t w d) ∨
      (∃ t w d, c = .writeProc t w d) ∧ m.cmd.content = .ack) := by
  cases hh with
  | readProc =>
    rw [mem_sent_send] at hm
    subst hm
    exact ⟨rfl, Or.inl ⟨rfl, rfl⟩⟩
  | valueRead =>
    rw [mem_sent_broadcast] at hm
    obtain ⟨t, -, rfl⟩ := hm
    exact ⟨rfl, Or.inr (Or.inl ⟨⟨_, _, _, rfl⟩, _, _, _, rfl⟩)⟩
  | valueWrite =>
    rw [mem_sent_write, mem_sent_broadcast] at hm
    obtain ⟨t, -, rfl⟩ := hm
    exact ⟨rfl, Or.inr (Or.inl ⟨⟨_, _, _, rfl⟩, _, _, _, rfl⟩)⟩
  | writeProcAdopt =>
    rw [mem_sent_write, mem_sent_send] at hm
    subst hm
    exact ⟨rfl, Or.inr (Or.inr ⟨⟨_, _, _, rfl⟩, rfl⟩)⟩
  | writeProcKeep =>
    rw [mem_sent_send] at hm
    subst hm
    exact ⟨rfl, Or.inr (Or.inr ⟨⟨_, _, _, rfl⟩, rfl⟩)⟩
  | ackRead | ackWrite => simp at hm
  | _ => simp at hm

/-- Whoever has sent an ACK holds, in its storage and in its register, a tag that is not smaller
    than the one it acknowledges: the store comes before the ACK. -/
theorem Handled.ack_tag (hh : Handled oc r h c r' effs) {s : SectorVec × UInt64 × UInt8}
    (hsec : r.sectorIdx = p.sectorIdx) (hdur : s = (r.val, r.ts, r.wr)) (hes : es <+: effs)
    (hm : m ∈ sent p es) (hack : m.cmd.content = .ack) :
    ∃ t w d, c = .writeProc t w d ∧ tag t w ≤ sectorTag (stored p s es) ∧
      tag t w ≤ tag r'.ts r'.wr := by
  obtain ⟨-, hkind⟩ := hh.sends (sent_mono hes hm)
  rw [hack] at hkind
  obtain ⟨t, w, d, rfl⟩ : ∃ t w d, c = .writeProc t w d := by simpa using hkind
  refine ⟨t, w, d, rfl, ?_⟩
  cases hh with
  | writeProcAdopt hlt =>
    -- of the prefixes of store and send only the whole list sends something
    rcases prefix_two hes with rfl | rfl | rfl
    · simp at hm
    · simp at hm
    · simp [stored, hsec]
  | writeProcKeep hle =>
    have hs : stored p s es = s := by
      rcases List.prefix_cons_iff.mp hes with rfl | ⟨l, rfl, hl⟩
      · rfl
      · obtain rfl : l = [] := List.prefix_nil.mp hl
        rfl
    rw [hs, hdur]
    exact ⟨hle, hle⟩

/-! ### What messages and collected replies stand for -/

structure Evidence (p : Params) (tr : Trace) (w : System) : Prop where
  opId : ∀ m ∈ w.network, m.cmd.header.msgIdent ∈ w.opIds
  sender : ∀ m ∈ w.network, m.cmd.header.processIdentifier ∈ processes p
  value : ∀ q id ts wr d, InNetwork w q id (.value ts wr d) → ∃ x ∈ since id tr, HandlesReadProc q id x
  ack : ∀ q id, InNetwork w q id .ack → ∃ j ts wr d, InNetwork w j id (.writeProc ts wr d) ∧
    ∃ x ∈ since id tr, HandlesWriteProc q id (tag ts wr) x
  readlist : ∀ i r k e, (w.process i).register = some r → r.readlist.lookup k = some e →
    ∃ id, r.opId = some id ∧ InNetwork w k id (.value e.1 e.2.1 e.2.2)
  acklist : ∀ i r q, (w.process i).register = some r → q ∈ r.acklist →
    ∃ id, r.opId = some id ∧ InNetwork w q id .ack

theorem InNetwork.mono {q : UInt8} {id : Uuid} (hsub : ∀ m ∈ w.network, m ∈ w'.network)
    (hin : InNetwork w q id c) : InNetwork w' q id c := by
  obtain ⟨m, hm, hrest⟩ := hin
  exact ⟨m, hsub m hm, hrest⟩

/-- The network only grows. -/
theorem network_mono {x : Step} (hs : step p x.pre x.event = some (x.post, x.out)) :
    ∀ m ∈ x.pre.network, m ∈ x.post.network := by
  intro m hm
  cases step_stepped hs with
  | client hi => rw [hi.network]; exact List.mem_append_left _ hm
  | system hd => rw [hd.network]; exact List.mem_append_left _ hm
  | restart hq => rw [hq.network]; exact hm

/-- The ids drawn so far stay drawn. -/
theorem opIds_mono {x : Step} (hs : step p x.pre x.event = some (x.post, x.out)) :
    ∀ id ∈ x.pre.opIds, id ∈ x.post.opIds := by
  intro id hid
  cases step_stepped hs with
  | client hi => rw [hi.opIds]; exact List.mem_cons_of_mem _ hid
  | system hd => rw [hd.opIds]; exact hid
  | restart hq => rw [hq.opIds]; exact hid

/-- A message that is new after a step: the READ_PROC of the operation being started, or what the
    handler of a delivered message has sent. -/
theorem new_message {x : Step} (hwf : WellFormed p tr x.pre)
    (hs : step p x.pre x.event = some (x.post, x.out)) (hm : m ∈ x.post.network) :
    m ∈ x.pre.network ∨
      (∃ i cmd id r, Invocation p x i cmd id r ∧ i ∈ processes p ∧
        m.cmd.header.processIdentifier = i ∧ m.cmd.header.msgIdent = id ∧
        m.cmd.content = .readProc) ∨
      ∃ i cmd r r' effs, Delivery p x i cmd r r' effs ∧ i ∈ processes p ∧ m ∈ sent p x.out ∧
        m.cmd.header.processIdentifier = i ∧ m.cmd.header.msgIdent = cmd.header.msgIdent := by
  cases step_stepped hs with
  | @client i cmd id r hi =>
    rw [hi.network] at hm
    rcases List.mem_append.mp hm with hm | hm
    · exact Or.inl hm
    · have hm' := sent_mono hi.effects hm
      rw [mem_sent_broadcast] at hm'
      obtain ⟨t, -, rfl⟩ := hm'
      exact Or.inr (Or.inl ⟨i, cmd, id, r, hi, mem_processes.mpr hi.process,
        (hwf.live i r hi.register).self, rfl, rfl⟩)
  | @system i cmd r r' effs hd =>
    rw [hd.network] at hm
    rcases List.mem_append.mp hm with hm | hm
    · exact Or.inl hm
    · obtain ⟨hhead, -⟩ := hd.handled.sends (sent_mono hd.effects hm)
      have hlive := hwf.live i r hd.register
      refine Or.inr (Or.inr ⟨i, cmd, r, r', effs, hd, hlive.process, hm, ?_, ?_⟩)
      · rw [hhead]; exact hlive.self
      · rw [hhead]; rfl
  | restart hq => rw [hq.network] at hm; exact Or.inl hm

/-- A step of an operation that has started is recorded behind its start. -/
theorem mem_since_last (hr : SystemRun p P tr w) {id : Uuid} (hid : id ∈ w.opIds) (x : Step) :
    x ∈ since id (tr ++ [x]) := by
  rw [since_snoc hr hid x]
  exact List.mem_append_right _ (List.mem_singleton_self x)

/-- What has happened since the start of an operation stays recorded. -/
theorem since_mono (hr : SystemRun p P tr w) {id : Uuid} (hid : id ∈ w.opIds) (x : Step) {y : Step}
    (hy : y ∈ since id tr) : y ∈ since id (tr ++ [x]) := by
  rw [since_snoc hr hid x]
  exact List.mem_append_left _ hy

/-- A VALUE is sent in the step that handles the READ_PROC. -/
theorem Delivery.handlesReadProc {x : Step} {i : UInt8} {cmd : SystemRegisterCommand} {ts : UInt64}
    {wr : UInt8} {d : SectorVec} (hd : Delivery p x i cmd r r' effs) (hm : m ∈ sent p x.out)
    (hc : m.cmd.content = .value ts wr d) : HandlesReadProc i cmd.header.msgIdent x := by
  obtain ⟨-, hkind⟩ := hd.handled.sends (sent_mono hd.effects hm)
  rw [hc] at hkind
  simp only [reduceCtorEq, and_false, exists_false, or_false] at hkind
  obtain ⟨order, cut, hev⟩ := hd.event
  refine ⟨cmd, order, cut, hev, rfl, hkind.1, fun hnil => ?_⟩
  simp [hnil] at hm

/-- An ACK is sent in the step that handles the WRITE_PROC. -/
theorem Delivery.handlesWriteProc {x : Step} {i : UInt8} {cmd : SystemRegisterCommand}
    (hd : Delivery p x i cmd r r' effs) (hwf : WellFormed p tr x.pre) (hm : m ∈ sent p x.out)
    (hc : m.cmd.content = .ack) : ∃ ts wr d, cmd.content = .writeProc ts wr d ∧
      HandlesWriteProc i cmd.header.msgIdent (tag ts wr) x := by
  have hlive := hwf.live _ _ hd.register
  obtain ⟨ts, wr, d, hwp, hsec, hreg⟩ :=
    hd.handled.ack_tag hlive.sectorIdx hlive.durable hd.effects hm hc
  obtain ⟨order, cut, hev⟩ := hd.event
  refine ⟨ts, wr, d, hwp, cmd, order, cut, ts, wr, d, hev, rfl, hwp, rfl, ?_, fun r'' hr'' => ?_⟩
  · rw [hd.sector]
    exact hsec
  · rw [(hd.up hr'').1]
    exact hreg

theorem evidence_init (p : Params) : Evidence p [] (init p) := by
  refine ⟨by simp [init], by simp [init], by simp [init, InNetwork], by simp [init, InNetwork],
    fun i r k e hreg hk => ?_, fun i r q hreg hq => ?_⟩
  · obtain ⟨-, rfl⟩ := init_register hreg
    simp at hk
  · obtain ⟨-, rfl⟩ := init_register hreg
    simp at hq

/-- A step adds the evidence for what it sends and collects. -/
theorem Evidence.next {x : Step} (h : Evidence p tr x.pre) (hr : SystemRun p P tr x.pre)
    (hs : step p x.pre x.event = some (x.post, x.out)) : Evidence p (tr ++ [x]) x.post := by
  have hwf := wellFormed hr
  have hnet := network_mono hs
  refine ⟨fun m hm => ?_, fun m hm => ?_, ?_, ?_, fun i r k e hreg hk => ?_, fun i r q hreg hq => ?_⟩
  · rcases new_message hwf hs hm with hold | ⟨i, cmd, id, r, hi, -, -, hid, -⟩ |
      ⟨i, cmd, r, r', effs, hd, -, -, -, hid⟩
    · exact opIds_mono hs _ (h.opId m hold)
    · rw [hid, hi.opIds]; exact List.mem_cons_self ..
    · rw [hid]; exact opIds_mono hs _ (h.opId _ hd.delivered)
  · rcases new_message hwf hs hm with hold | ⟨i, cmd, id, r, -, hi, hself, -, -⟩ |
      ⟨i, cmd, r, r', effs, -, hi, -, hself, -⟩
    · exact h.sender m hold
    · rw [hself]; exact hi
    · rw [hself]; exact hi
  · rintro q id ts wr d ⟨m, hm, rfl, rfl, hc⟩
    rcases new_message hwf hs hm with hold | ⟨i, cmd, id, r, -, -, -, -, hc'⟩ |
      ⟨i, cmd, r, r', effs, hd, -, hsent, hself, hid⟩
    · obtain ⟨y, hy, hread⟩ := h.value _ _ ts wr d ⟨m, hold, rfl, rfl, hc⟩
      exact ⟨y, since_mono hr (h.opId m hold) x hy, hread⟩
    · simp [hc] at hc'
    · rw [hself, hid]
      exact ⟨x, mem_since_last hr (h.opId _ hd.delivered) x, hd.handlesReadProc hsent hc⟩
  · rintro q id ⟨m, hm, rfl, rfl, hc⟩
    rcases new_message hwf hs hm with hold | ⟨i, cmd, id, r, -, -, -, -, hc'⟩ |
      ⟨i, cmd, r, r', effs, hd, -, hsent, hself, hid⟩
    · obtain ⟨j, ts, wr, d, hin, y, hy, hwrite⟩ := h.ack _ _ ⟨m, hold, rfl, rfl, hc⟩
      exact ⟨j, ts, wr, d, hin.mono hnet, y, since_mono hr (h.opId m hold) x hy, hwrite⟩
    · simp [hc] at hc'
    · obtain ⟨ts, wr, d, hwp, hwrite⟩ := hd.handlesWriteProc hwf hsent hc
      rw [hself, hid]
      exact ⟨cmd.header.processIdentifier, ts, wr, d, ⟨⟨cmd, i⟩, hnet _ hd.delivered, rfl, rfl, hwp⟩,
        x, mem_since_last hr (h.opId _ hd.delivered) x, hwrite⟩
  · rcases register_after hs hreg with hold | ⟨cmd, id, r₀, hi, rfl⟩ | ⟨cmd, r₀, hd⟩ | rfl
    · obtain ⟨id, hop, hin⟩ := h.readlist i r k e hold hk
      exact ⟨id, hop, hin.mono hnet⟩
    · simp [clientCommand_lists] at hk
    · rw [hd.handled.ids.1]
      rcases hd.handled.readlist hk with hk | ⟨rfl, hop, hc⟩
      · obtain ⟨id, hop, hin⟩ := h.readlist i r₀ k e hd.register hk
        exact ⟨id, hop, hin.mono hnet⟩
      · exact ⟨_, hop, ⟨cmd, i⟩, hnet _ hd.delivered, rfl, rfl, hc⟩
    · simp at hk
  · rcases register_after hs hreg with hold | ⟨cmd, id, r₀, hi, rfl⟩ | ⟨cmd, r₀, hd⟩ | rfl
    · obtain ⟨id, hop, hin⟩ := h.acklist i r q hold hq
      exact ⟨id, hop, hin.mono hnet⟩
    · simp [clientCommand_lists] at hq
    · rw [hd.handled.ids.1]
      rcases hd.handled.acklist hq with hq | ⟨rfl, hop, hc⟩
      · obtain ⟨id, hop, hin⟩ := h.acklist i r₀ q hd.register hq
        exact ⟨id, hop, hin.mono hnet⟩
      · exact ⟨_, hop, ⟨cmd, i⟩, hnet _ hd.delivered, rfl, rfl, hc⟩
    · simp at hq

/-- Every run keeps the evidence. -/
theorem evidence (hr : SystemRun p P tr w) : Evidence p tr w :=
  hr.invariant (evidence_init p) fun _ _ hr h _ hs => h.next hr hs

end AtomicDisk.Register
