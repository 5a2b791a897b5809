import AtomicDisk.Register.Evidence

/-! The two quorums of an operation. Once VALUE messages of more than half of the processes are in, the
    register picks what it will have written (`Picks`): the entry it has found, for a read, or the
    client's data under a new timestamp, for a write. It does so at most once for each operation, so
    every WRITE_PROC of an operation carries the same tag and data, and the callback comes after more
    than half of the processes have acknowledged that tag. -/

namespace AtomicDisk.Register
open Schemes

variable {p : Params} {P : System → Event → Prop} {tr : Trace} {w : System} {x : Step}
  {i wr : UInt8} {id : Uuid} {t : UInt64} {d : SectorVec}

/-! ### Majorities of the processes -/

/-- More than half of the processes satisfy `Q`. -/
def MajorityOf (p : Params) (Q : UInt8 → Prop) : Prop :=
  ∃ S ⊆ processes p, p.processesCount.toNat / 2 < S.card ∧ ∀ q ∈ S, Q q

theorem MajorityOf.mono {Q R : UInt8 → Prop} (h : MajorityOf p Q) (hQR : ∀ q, Q q → R q) :
    MajorityOf p R := by
  obtain ⟨S, hsub, hcard, hS⟩ := h
  exact ⟨S, hsub, hcard, fun q hq => hQR q (hS q hq)⟩

/-- Two majorities share a process. -/
theorem MajorityOf.inter {Q R : UInt8 → Prop} (hQ : MajorityOf p Q) (hR : MajorityOf p R) :
    ∃ q ∈ processes p, Q q ∧ R q := by
  obtain ⟨S, hS, hSc, hSQ⟩ := hQ
  obtain ⟨T, hT, hTc, hTR⟩ := hR
  rw [← card_processes p] at hSc hTc
  obtain ⟨q, hqS, hqT⟩ := majority_inter hS hT hSc hTc
  exact ⟨q, hS hqS, hSQ q hqS, hTR q hqT⟩

/-! ### Picking what to write -/

/-- The effect stores, or broadcasts in a WRITE_PROC, the data `d` under the tag `(t, wr)`. -/
def Carries (t : UInt64) (wr : UInt8) (d : SectorVec) (e : Effect Uuid) : Prop :=
  (∃ idx, e = .write idx (d, t, wr)) ∨ ∃ h, e = .broadcast ⟨h, .writeProc t wr d⟩

/-- In this step process `i` handles the VALUE that completes the first quorum of operation `id`,
    and goes on to write `d` under the tag `(t, wr)`. -/
def Picks (i : UInt8) (id : Uuid) (t : UInt64) (wr : UInt8) (d : SectorVec) (x : Step) : Prop :=
  ∃ cmd order cut, x.event = .systemCommand i cmd order cut ∧ cmd.header.msgIdent = id ∧
    (∃ ts rank v, cmd.content = .value ts rank v) ∧ ∃ e ∈ x.out, Carries t wr d e

/-- The VALUE `v` with header `h` completes the first quorum of the operation of `r`. -/
structure Completes (r : AtomicRegisterState Uuid) (h : SystemCommandHeader) (v : ReadEntry) :
    Prop where
  opId : r.opId = some h.msgIdent
  phase : r.writePhase = false
  quorum : Majority r (collected r h.processIdentifier v).len
  working : (r.reading || r.writing) = true

/-- What is picked: for a read the highest entry, for a write the client's data with the next
    timestamp and the register's own rank. -/
def Choice (oc : Bool) (r : AtomicRegisterState Uuid) (e : ReadEntry) (t : UInt64) (wr : UInt8)
    (d : SectorVec) : Prop :=
  r.reading = true ∧ e = (t, wr, d) ∨
    r.reading = false ∧ r.writing = true ∧ addU64 oc e.1 1 = some t ∧ wr = r.selfIdent ∧ d = r.writeval

/-- A step that picks, in full. -/
structure Picked (p : Params) (i : UInt8) (id : Uuid) (t : UInt64) (wr : UInt8) (d : SectorVec)
    (x : Step) (cmd : SystemRegisterCommand) (v e : ReadEntry) (r r' : AtomicRegisterState Uuid)
    (effs : List (Effect Uuid)) : Prop where
  delivery : Delivery p x i cmd r r' effs
  ident : cmd.header.msgIdent = id
  value : cmd.content = .value v.1 v.2.1 v.2.2
  completes : Completes r cmd.header v
  highest : Highest (consulted r cmd.header.processIdentifier v) e
  choice : Choice p.overflowChecks r e t wr d
  readval : r'.readval = e.2.2
  flags : r'.writePhase = true ∧ r'.reading = r.reading
  broadcast : .broadcast ⟨replyHeader r cmd.header, .writeProc t wr d⟩ ∈ effs
  only : ∀ eff ∈ effs, ∀ t' wr' d', Carries t' wr' d' eff → t' = t ∧ wr' = wr ∧ d' = d
  store : r.reading = false → .write r.sectorIdx (d, t, wr) ∈ x.out
  readOnly : r.reading = true → ∀ idx s, .write idx s ∉ effs

/-- The step at which an operation picks is a VALUE handler in one of its last two branches. -/
theorem Picks.picked (hs : step p x.pre x.event = some (x.post, x.out)) (hp : Picks i id t wr d x) :
    ∃ cmd v e r r' effs, Picked p i id t wr d x cmd v e r r' effs := by
  obtain ⟨cmd, order, cut, hev, hid, ⟨ts, rank, v, hc⟩, eff, heff, hcar⟩ := hp
  cases step_stepped hs with
  | client hi => obtain ⟨cut', hev'⟩ := hi.event; rw [hev] at hev'; cases hev'
  | restart hq => rw [hq.out] at heff; simp at heff
  | @system j cmd' r r' effs hd =>
    obtain ⟨order', cut', hev'⟩ := hd.event
    rw [hev] at hev'
    cases hev'
    have hmem := hd.effects.subset heff
    have hh := hd.handled
    rw [hc] at hh
    refine ⟨cmd, (ts, rank, v), ?_⟩
    cases hh with
    | valueStale | valueCollect => simp at hmem
    | @valueRead _ _ _ e hop hphase hmaj hread hhigh =>
      obtain rfl := List.mem_singleton.mp hmem
      obtain ⟨rfl, rfl, rfl⟩ : e.1 = t ∧ e.2.1 = wr ∧ e.2.2 = d := by simpa [Carries] using hcar
      exact ⟨e, r, _, _, hd, hid, hc, ⟨hop, hphase, hmaj, by simp [hread]⟩, hhigh,
        Or.inl ⟨hread, rfl⟩, rfl, ⟨rfl, rfl⟩, List.mem_singleton_self _,
        by simp +contextual [Carries], fun h => by simp [hread] at h, by simp⟩
    | @valueWrite _ _ _ e ts' hop hphase hmaj hread hwrite hhigh hadd =>
      obtain ⟨rfl, rfl, rfl⟩ : ts' = t ∧ r.selfIdent = wr ∧ r.writeval = d := by
        rcases List.mem_pair.mp hmem with rfl | rfl
        · obtain ⟨h₁, h₂, h₃⟩ : r.writeval = d ∧ ts' = t ∧ r.selfIdent = wr := by
            simpa [Carries] using hcar
          exact ⟨h₂, h₃, h₁⟩
        · simpa [Carries] using hcar
      refine ⟨e, r, _, _, hd, hid, hc, ⟨hop, hphase, hmaj, by simp [hwrite]⟩, hhigh,
        Or.inr ⟨hread, hwrite, hadd, rfl, rfl⟩, rfl, ⟨rfl, rfl⟩, by simp,
        by simp +contextual [Carries], fun _ => ?_, fun h => by simp [hread] at h⟩
      -- the store is the first effect, so no crash after some effect comes before it
      rcases prefix_two hd.effects with hout | hout | hout
      · simp [hout] at heff
      · simp [hout]
      · simp [hout]

/-! ### Collected replies are majorities -/

/-- The replies counted when the first quorum is complete: each of them was sent. -/
theorem Completes.majority {r : AtomicRegisterState Uuid} {cmd : SystemRegisterCommand}
    {v : ReadEntry} (hr : SystemRun p P tr w) (hreg : (w.process i).register = some r)
    (hdel : ⟨cmd, i⟩ ∈ w.network) (hc : cmd.content = .value v.1 v.2.1 v.2.2)
    (h : Completes r cmd.header v) :
    MajorityOf p fun q => ∃ e, (collected r cmd.header.processIdentifier v).lookup q = some e ∧
      InNetwork w q cmd.header.msgIdent (.value e.1 e.2.1 e.2.2) := by
  have hev := evidence hr
  have hlive := (wellFormed hr).live i r hreg
  have hsent : ∀ q e, (collected r cmd.header.processIdentifier v).lookup q = some e →
      InNetwork w q cmd.header.msgIdent (.value e.1 e.2.1 e.2.2) := by
    intro q e hq
    by_cases hk : q = cmd.header.processIdentifier
    · rw [hk, collected, AList.lookup_insert] at hq
      obtain rfl := Option.some.inj hq
      exact ⟨⟨cmd, i⟩, hdel, hk.symm, rfl, hc⟩
    · rw [collected, AList.lookup_insert_ne hk] at hq
      obtain ⟨id, hop, hin⟩ := hev.readlist i r q e hreg hq
      obtain rfl : id = cmd.header.msgIdent := Option.some.inj (hop.symm.trans h.opId)
      exact hin
  refine ⟨(collected r cmd.header.processIdentifier v).dom, fun q hq => ?_, ?_, fun q hq => ?_⟩
  · obtain ⟨e, he⟩ := HashMap.mem_dom.mp hq
    obtain ⟨m, hm, rfl, -⟩ := hsent q e he
    exact hev.sender m hm
  · rw [← HashMap.len_eq_card, ← hlive.count]
    exact h.quorum
  · obtain ⟨e, he⟩ := HashMap.mem_dom.mp hq
    exact ⟨e, he, hsent q e he⟩

/-- The acknowledgements counted when the second quorum is complete: each of them was sent. -/
theorem acked_majority {r : AtomicRegisterState Uuid} {cmd : SystemRegisterCommand}
    (hr : SystemRun p P tr w) (hreg : (w.process i).register = some r)
    (hdel : ⟨cmd, i⟩ ∈ w.network) (hc : cmd.content = .ack) (hop : r.opId = some cmd.header.msgIdent)
    (hmaj : Majority r (insert cmd.header.processIdentifier r.acklist).card) :
    MajorityOf p fun q => InNetwork w q cmd.header.msgIdent .ack := by
  have hev := evidence hr
  have hlive := (wellFormed hr).live i r hreg
  have hsent : ∀ q ∈ insert cmd.header.processIdentifier r.acklist,
      InNetwork w q cmd.header.msgIdent .ack := by
    intro q hq
    rcases Finset.mem_insert.mp hq with rfl | hq
    · exact ⟨⟨cmd, i⟩, hdel, rfl, rfl, hc⟩
    · obtain ⟨id, hop', hin⟩ := hev.acklist i r q hreg hq
      obtain rfl : id = cmd.header.msgIdent := Option.some.inj (hop'.symm.trans hop)
      exact hin
  refine ⟨_, fun q hq => ?_, ?_, hsent⟩
  · obtain ⟨m, hm, rfl, -⟩ := hsent q hq
    exact hev.sender m hm
  · rw [← hlive.count]; exact hmaj

/-! ### An operation picks once -/

/-- In this step operation `id` picks something. -/
def PicksFor (id : Uuid) (x : Step) : Prop := ∃ i t wr d, Picks i id t wr d x

/-- Where the operations stand: one that still collects VALUE messages has not picked, one that
    collects ACK messages has, and no operation has picked twice. -/
structure Phases (p : Params) (tr : Trace) (w : System) : Prop where
  writeProc : ∀ q id t wr d, InNetwork w q id (.writeProc t wr d) → ∃ x ∈ tr, Picks q id t wr d x
  once : tr.Pairwise fun x y => ∀ id, PicksFor id x → ¬ PicksFor id y
  first : ∀ i id r, (w.process i).pending = some id → (w.process i).register = some r →
    r.writePhase = false → ∀ x ∈ tr, ¬ PicksFor id x
  second : ∀ i id r, (w.process i).pending = some id → (w.process i).register = some r →
    r.writePhase = true → ∃ t wr d, InNetwork w i id (.writeProc t wr d) ∧
      (r.reading = true → d = r.readval)

/-- A WRITE_PROC that a step sends is what the step picks. -/
theorem picks_of_sent {cmd : SystemRegisterCommand} {r r' : AtomicRegisterState Uuid}
    {effs : List (Effect Uuid)} {m : SendMsg} (hd : Delivery p x i cmd r r' effs)
    (hm : m ∈ sent p x.out) (hc : m.cmd.content = .writeProc t wr d) :
    Picks i cmd.header.msgIdent t wr d x := by
  obtain ⟨order, cut, hev⟩ := hd.event
  obtain ⟨-, hkind⟩ := hd.handled.sends (sent_mono hd.effects hm)
  have hval : ∃ ts rank v, cmd.content = .value ts rank v := by
    rw [hc] at hkind
    simpa using hkind
  refine ⟨cmd, order, cut, hev, rfl, hval, ?_⟩
  rcases mem_sent.mp hm with hsend | ⟨hcast, -⟩
  · -- a VALUE handler broadcasts, and sends to nobody in particular
    obtain ⟨ts, rank, v, hv⟩ := hval
    have hmem := hd.effects.subset hsend
    have hh := hd.handled
    rw [hv] at hh
    cases hh <;> simp at hmem
  · exact ⟨_, hcast, Or.inr ⟨m.cmd.header, by rw [← hc]⟩⟩

/-- The id of an operation that picks is that of the uncompleted command. -/
theorem Picked.pending {cmd : SystemRegisterCommand} {v e : ReadEntry}
    {r r' : AtomicRegisterState Uuid} {effs : List (Effect Uuid)} (hwf : WellFormed p tr x.pre)
    (h : Picked p i id t wr d x cmd v e r r' effs) : (x.pre.process i).pending = some id := by
  obtain ⟨id', -, hpend, hop, -⟩ :=
    (hwf.live i r h.delivery.register).working h.completes.working
  have hid := hop.symm.trans h.completes.opId
  rw [h.ident] at hid
  rw [hpend, hid]

/-- An operation picks after it has started. -/
theorem Picks.opId (hr : SystemRun p P tr w) (hx : x ∈ tr) (hp : Picks i id t wr d x) :
    id ∈ w.opIds := by
  obtain ⟨l₁, l₂, htr⟩ := List.append_of_mem hx
  obtain ⟨hrun, -, hs⟩ := hr.split htr
  obtain ⟨cmd, v, e, r, r', effs, hpk⟩ := hp.picked hs
  have hid := (evidence hrun).opId _ hpk.delivery.delivered
  rw [hpk.ident] at hid
  obtain ⟨y, hy, hst⟩ := (opIds_iff hrun id).mp hid
  exact (opIds_iff hr id).mpr ⟨y, by simp [htr, hy], hst⟩

/-- An operation that has just picked is not waiting for VALUE messages any more. -/
theorem Picks.phase (hr : SystemRun p P tr x.pre) (hr' : SystemRun p P (tr ++ [x]) x.post)
    (hs : step p x.pre x.event = some (x.post, x.out)) (hp : Picks i id t wr d x) {j : UInt8}
    {r : AtomicRegisterState Uuid} (hpend : (x.post.process j).pending = some id)
    (hreg : (x.post.process j).register = some r) : r.writePhase = true := by
  obtain ⟨cmd, v, e, r₀, r', effs, hpk⟩ := hp.picked hs
  obtain ⟨-, -, cmd₁, hst₁, -⟩ := ((wellFormed hr').live j r hreg).busy id hpend
  obtain ⟨-, -, cmd₂, hst₂, -⟩ := ((wellFormed hr).live i r₀ hpk.delivery.register).busy id
    (hpk.pending (wellFormed hr))
  obtain ⟨rfl, -⟩ := hst₁.unique hr' (hst₂.append [x])
  rw [(hpk.delivery.up hreg).1]
  exact hpk.flags.1

/-- An operation that collects VALUE messages after a step has done so before it, or has just started. -/
theorem first_phase_before (hr' : SystemRun p P (tr ++ [x]) x.post)
    (hs : step p x.pre x.event = some (x.post, x.out)) {r : AtomicRegisterState Uuid}
    (hpend : (x.post.process i).pending = some id) (hreg : (x.post.process i).register = some r)
    (hphase : r.writePhase = false) :
    (∃ r₀, (x.pre.process i).pending = some id ∧ (x.pre.process i).register = some r₀ ∧
      r₀.writePhase = false) ∨ id ∉ x.pre.opIds := by
  rcases pending_after hs hpend with hsame | ⟨cmd, r₀, hi, -⟩ | ⟨cmd, r₀, r', hd, hpre, hreg'⟩
  · rw [hsame] at hpend hreg
    exact Or.inl ⟨r, hpend, hreg, hphase⟩
  · exact Or.inr hi.fresh
  · obtain rfl : r' = r := Option.some.inj (hreg'.symm.trans hreg)
    by_cases hon : r₀.writePhase = true
    · -- the phase ends with the operation, which would have nobody to answer
      have hcb := hd.handled.phase_falls hon hphase
      obtain ⟨-, hcb', -⟩ := ((wellFormed hr').live i r' hreg).busy id hpend
      simp [hcb] at hcb'
    · exact Or.inl ⟨r₀, hpre, hd.register, by simpa using hon⟩

/-- After a step, an operation that still collects VALUE messages has not picked before it. -/
theorem Phases.first_next (h : Phases p tr x.pre) (hr : SystemRun p P tr x.pre)
    (hr' : SystemRun p P (tr ++ [x]) x.post) (hs : step p x.pre x.event = some (x.post, x.out))
    {r : AtomicRegisterState Uuid} (hpend : (x.post.process i).pending = some id)
    (hreg : (x.post.process i).register = some r) (hphase : r.writePhase = false) {y : Step}
    (hy : y ∈ tr) : ¬ PicksFor id y := by
  intro hpy
  rcases first_phase_before hr' hs hpend hreg hphase with ⟨r₀, hpre, hreg₀, hoff⟩ | hfresh
  · exact h.first i id r₀ hpre hreg₀ hoff y hy hpy
  · obtain ⟨j, t, wr, d, hp⟩ := hpy
    exact hfresh (hp.opId hr hy)

/-- After a step, an operation that collects ACK messages has sent its WRITE_PROC. -/
theorem Phases.second_next (h : Phases p tr x.pre) (hwf : WellFormed p tr x.pre)
    (hs : step p x.pre x.event = some (x.post, x.out)) {r : AtomicRegisterState Uuid}
    (hpend : (x.post.process i).pending = some id) (hreg : (x.post.process i).register = some r)
    (hphase : r.writePhase = true) : ∃ t wr d, InNetwork x.post i id (.writeProc t wr d) ∧
      (r.reading = true → d = r.readval) := by
  have hnet := network_mono hs
  rcases pending_after hs hpend with hsame | ⟨cmd, r₀, hi, hreg'⟩ | ⟨cmd, r₀, r', hd, hpre, hreg'⟩
  · rw [hsame] at hpend hreg
    obtain ⟨t, wr, d, hin, hread⟩ := h.second i id r hpend hreg hphase
    exact ⟨t, wr, d, hin.mono hnet, hread⟩
  · -- an operation starts outside the write phase
    obtain rfl : _ = r := Option.some.inj (hreg'.symm.trans hreg)
    obtain ⟨-, -, hoff, -⟩ := (hwf.live i r₀ hi.register).idle hi.idle
    simp [hoff] at hphase
  · obtain rfl : r' = r := Option.some.inj (hreg'.symm.trans hreg)
    have hlive := hwf.live i r₀ hd.register
    obtain ⟨hop, -⟩ := hlive.busy id hpre
    rcases hd.handled.phase_on hphase with ⟨hon, hreading, hval⟩ | ⟨hop', t, wr, d, hcast, hread⟩
    · obtain ⟨t, wr, d, hin, hread⟩ := h.second i id r₀ hpre hd.register hon
      exact ⟨t, wr, d, hin.mono hnet, by rw [hreading, hval]; exact hread⟩
    · refine ⟨t, wr, d, ⟨⟨⟨replyHeader r₀ cmd.header, .writeProc t wr d⟩, i⟩, ?_, hlive.self,
        ?_, rfl⟩, hread⟩
      · rw [hd.network]
        exact List.mem_append_right _ (mem_sent.mpr (Or.inr ⟨hcast, mem_processes.mp hlive.process⟩))
      · exact Option.some.inj (hop'.symm.trans hop)

/-- Operations go through their phases in order. -/
theorem phases (hr : SystemRun p P tr w) : Phases p tr w := by
  refine hr.invariant ?_ ?_
  · exact ⟨by simp [init, InNetwork], List.Pairwise.nil, by simp [init], by simp [init]⟩
  · intro tr x hr ih hP hs
    have hr' : SystemRun p P (tr ++ [x]) x.post := hr.snoc hP hs
    have hwf := wellFormed hr
    refine ⟨?_, ?_, fun i id r hpend hreg hphase y hy => ?_,
      fun i id r hpend hreg hphase => ih.second_next hwf hs hpend hreg hphase⟩
    · rintro q id t wr d ⟨m, hm, rfl, rfl, hc⟩
      rcases new_message hwf hs hm with hold | ⟨i, cmd, id, r, -, -, -, -, hc'⟩ |
        ⟨i, cmd, r, r', effs, hd, -, hsent, hself, hid⟩
      · obtain ⟨y, hy, hp⟩ := ih.writeProc _ _ t wr d ⟨m, hold, rfl, rfl, hc⟩
        exact ⟨y, List.mem_append_left _ hy, hp⟩
      · simp [hc] at hc'
      · refine ⟨x, by simp, ?_⟩
        rw [hself, hid]
        exact picks_of_sent hd hsent hc
    · refine List.pairwise_append.mpr ⟨ih.once, List.pairwise_singleton _ _, fun y hy z hz id hpy hpz => ?_⟩
      obtain rfl := List.mem_singleton.mp hz
      obtain ⟨i, t, wr, d, hp⟩ := hpz
      obtain ⟨cmd, v, e, r, r', effs, hpk⟩ := hp.picked hs
      exact ih.first i id r (hpk.pending hwf) hpk.delivery.register hpk.completes.phase y hy hpy
    · rcases List.mem_append.mp hy with hy | hy
      · exact ih.first_next hr hr' hs hpend hreg hphase hy
      · obtain rfl := List.mem_singleton.mp hy
        rintro ⟨j, t, wr, d, hp⟩
        simp [hp.phase hr hr' hs hpend hreg] at hphase

/-- An operation picks in one step, and one thing. -/
theorem Picks.unique (hr : SystemRun p P tr w) {y : Step} {j wr' : UInt8} {t' : UInt64}
    {d' : SectorVec} (hx : x ∈ tr) (hy : y ∈ tr) (hpx : Picks i id t wr d x)
    (hpy : Picks j id t' wr' d' y) : x = y ∧ i = j ∧ t = t' ∧ wr = wr' ∧ d = d' := by
  have hxy : x = y := by
    by_contra hne
    have hpx' : PicksFor id x := ⟨_, _, _, _, hpx⟩
    have hpy' : PicksFor id y := ⟨_, _, _, _, hpy⟩
    rcases pairwise_either (phases hr).once hx hy hne with honce | honce
    · exact honce id hpx' hpy'
    · exact honce id hpy' hpx'
  subst hxy
  obtain ⟨l, -, -, hs⟩ := hr.entry hx
  obtain ⟨cmd, v, e, r, r', effs, hpk⟩ := hpy.picked hs
  obtain ⟨cmd', order, cut, hev, -, -, eff, heff, hcar⟩ := hpx
  obtain ⟨order', cut', hev'⟩ := hpk.delivery.event
  rw [hev] at hev'
  cases hev'
  exact ⟨rfl, rfl, hpk.only eff (hpk.delivery.effects.subset heff) _ _ _ hcar⟩

/-- All WRITE_PROC messages of an operation carry the same. -/
theorem writeProc_unique (hr : SystemRun p P tr w) {q q' wr' : UInt8} {t' : UInt64} {d' : SectorVec}
    (h : InNetwork w q id (.writeProc t wr d)) (h' : InNetwork w q' id (.writeProc t' wr' d')) :
    q = q' ∧ t = t' ∧ wr = wr' ∧ d = d' := by
  obtain ⟨x, hx, hpx⟩ := (phases hr).writeProc _ _ _ _ _ h
  obtain ⟨y, hy, hpy⟩ := (phases hr).writeProc _ _ _ _ _ h'
  exact (hpx.unique hr hx hy hpy).2

end AtomicDisk.Register
