import AtomicDisk.Register.Tags
import AtomicDisk.Schemes.Linearizable

/-! Linearizability of one sector. The history of a run lists the client commands and the callbacks in
    the order they happen. Every operation that has picked something gets the tag it picked:

        majority handled WRITE_PROC of o  ∩  majority answered READ_PROC of o'
                         └────────────── q ──────────────┘
        tag of o  ≤  tag of q when o' starts  ≤  VALUE of q  ≤  highest entry  ≤  tag of o'

    The last but one step needs the highest entry to be the latest, which the comparison of ranks does
    not give: `HighestIsLatest` is the condition on the readlists met under which it holds. -/

namespace AtomicDisk.Register
open Schemes

/-! ### The condition -/

/-- The entry has the largest timestamp in the readlist, and a write can increment it. -/
def Latest (p : Params) : EntryCondition := fun r m e =>
  (∀ e' ∈ m.entries, e'.2.1.toNat ≤ e.1.toNat) ∧ (r.reading = false → Incrementable p e.1)

def HighestIsLatest (p : Params) : System → Event → Prop := AtQuorum (Latest p)

instance (p : Params) (r : AtomicRegisterState Uuid) (m : HashMap UInt8 ReadEntry) (e : ReadEntry) :
    Decidable (Latest p r m e) := by
  dsimp only [Latest]; infer_instance

instance (p : Params) (w : System) (e : Event) : Decidable (HighestIsLatest p w e) :=
  inferInstanceAs (Decidable (AtQuorum _ w e))

/-! ### The history of a run -/

/-- The call a client command makes. -/
def callOf : ClientRegisterCommandContent → Call SectorVec
  | .read => .read
  | .write data => .write data

/-- What a callback returns to the client. -/
def returnOf : OperationReturn → Option SectorVec
  | .read readData => some readData
  | .write => none

/-- The client command a step starts with, if it starts with one. -/
def invocationOf (x : Step) : Option (Uuid × Call SectorVec) :=
  match x.event with
  | .clientCommand _ cmd id _ => some (id, callOf cmd.content)
  | _ => none

/-- The callbacks a step invokes. -/
def responsesOf (x : Step) : List (HEvent Uuid SectorVec) :=
  x.out.filterMap fun
    | .callback f op => some (.respond f (returnOf op.opReturn))
    | _ => none

/-- The history of client operations of a run. -/
def history (tr : Trace) : List (HEvent Uuid SectorVec) :=
  tr.flatMap fun x => (invocationOf x).toList.map (fun o => .invoke o.1 o.2) ++ responsesOf x

variable {p : Params} {P : System → Event → Prop} {tr l₁ l₂ : Trace} {w : System} {x y : Step}
  {i j q wr wr' : UInt8} {id o o' : Uuid} {t t' : UInt64} {d d' : SectorVec}
  {r r' : AtomicRegisterState Uuid}

theorem Latest.tagGrows {m : HashMap UInt8 ReadEntry} {e : ReadEntry} (h : Latest p r m e)
    (hown : m.lookup r.selfIdent = some (r.ts, r.wr, r.val)) : TagGrows p r m e :=
  fun hread => tagGrows_of_latest hown (h.2 hread) h.1 hread

theorem HighestIsLatest.newTagLarger {e : Event} (h : HighestIsLatest p w e) : NewTagLarger p w e :=
  AtQuorum.imp h fun _ _ _ hown hlatest => hlatest.tagGrows hown

/-! ### Tags grow with real time -/

/-- Stored tags never decrease along a run. -/
theorem sectorTag_pre_le (hr : SystemRun p (NewTagLarger p) tr w) (hx : x ∈ tr) (q : UInt8) :
    sectorTag (x.pre.process q).sector ≤ sectorTag (w.process q).sector ∧
      sectorTag (x.post.process q).sector ≤ sectorTag (w.process q).sector := by
  obtain ⟨hle, -⟩ := hr.monotone (fun w => sectorTag (w.process q).sector)
    fun tr x hrun hP hs => sectorTag_le hrun hP hs q
  exact ⟨(hle x hx).2.trans (hle x hx).1, (hle x hx).1⟩

/-- A VALUE tells of its sender's tag at some time after the operation has started. -/
theorem value_fresh (hr : SystemRun p (NewTagLarger p) tr w)
    (hin : InNetwork w q id (.value t wr d)) (hy : y ∈ tr) (hst : starts id y = true) :
    sectorTag (y.pre.process q).sector ≤ tag t wr := by
  revert y
  revert hin
  refine hr.invariant (I := fun tr w => InNetwork w q id (.value t wr d) →
    ∀ {y : Step}, y ∈ tr → starts id y = true →
      sectorTag (y.pre.process q).sector ≤ tag t wr) (by simp) ?_
  intro tr x hr ih hP hs hin y hy hst
  obtain ⟨m, hm, rfl, rfl, hc⟩ := hin
  rcases new_message (wellFormed hr) hs hm with hold | ⟨i, cmd, id, r, -, -, -, -, hc'⟩ |
    ⟨i, cmd, r, r', effs, hd, -, hsent, hself, hid⟩
  · rcases List.mem_append.mp hy with hy | hy
    · exact ih ⟨m, hold, rfl, rfl, hc⟩ hy hst
    · -- an operation with messages does not start again
      obtain rfl := List.mem_singleton.mp hy
      obtain ⟨z, hz, hsz⟩ := (opIds_iff hr _).mp ((evidence hr).opId m hold)
      exact absurd hsz (fresh_at_start (hr.snoc hP hs) rfl hst z hz)
  · simp [hc] at hc'
  · obtain ⟨-, hkind⟩ := hd.handled.sends (sent_mono hd.effects hsent)
    rw [hc] at hkind
    obtain ⟨-, rfl, rfl, rfl⟩ : _ ∧ t = r.ts ∧ wr = r.wr ∧ d = r.val := by simpa using hkind
    have hdur := ((wellFormed hr).live i r hd.register).durable
    rcases List.mem_append.mp hy with hy | hy
    · have hle := (sectorTag_pre_le hr hy i).1
      rw [hdur, sectorTag_mk] at hle
      rw [hself]
      exact hle
    · obtain rfl := List.mem_singleton.mp hy
      obtain ⟨order, cut, hev⟩ := hd.event
      simp [starts, hev] at hst

/-- What is picked is not below any entry of the readlist, and above all of them for a write. -/
theorem Picked.covers {cmd : SystemRegisterCommand} {v e e' : ReadEntry} {effs : List (Effect Uuid)}
    (h : Picked p i id t wr d x cmd v e r r' effs) (hP : HighestIsLatest p x.pre x.event) {k : UInt8}
    (hk : (consulted r cmd.header.processIdentifier v).lookup k = some e') :
    entryTag e' ≤ tag t wr ∧ (r.reading = false → entryTag e' < tag t wr) := by
  obtain ⟨hlatest, hinc⟩ := AtQuorum.picked hP h
  have hts : e'.1.toNat ≤ e.1.toNat := hlatest ⟨k, e'⟩ (AList.mem_lookup_iff.mp hk)
  have hrank : e'.2.1.toNat ≤ e.2.1.toNat := UInt8.le_iff_toNat_le.mp (h.highest.2 k e' hk)
  have hlt : r.reading = false → entryTag e' < tag t wr := by
    intro hread
    rcases h.choice with ⟨hread', -⟩ | ⟨-, -, hadd, -, -⟩
    · simp [hread] at hread'
    · rw [entryTag, tag_lt_toNat, (hinc hread).add hadd]
      omega
  refine ⟨?_, hlt⟩
  cases hread : r.reading with
  | false => exact (hlt hread).le
  | true =>
    rcases h.choice with ⟨-, rfl⟩ | ⟨hread', -⟩
    · rw [entryTag, ← not_lt, tag_lt_toNat]
      dsimp only at hts hrank
      omega
    · simp [hread] at hread'

/-- What kind of operation picks. -/
theorem Picked.kind {cmd : SystemRegisterCommand} {v e : ReadEntry} {effs : List (Effect Uuid)}
    (h : Picked p i id t wr d x cmd v e r r' effs) (hwf : WellFormed p tr x.pre) :
    ∃ c, Started tr i id c ∧ (r.reading = true ∧ c.content = .read ∨
      r.reading = false ∧ c.content = .write d ∧ Issues p i id t d x ∧ wr = i) := by
  have hlive := hwf.live i r h.delivery.register
  obtain ⟨-, -, c, hst, hw⟩ := hlive.busy id (h.pending hwf)
  refine ⟨c, hst, ?_⟩
  rcases h.choice with ⟨hread, -⟩ | ⟨hread, -, -, rfl, rfl⟩
  · exact Or.inl ⟨hread, hw.read hread⟩
  · obtain ⟨hiss, hself⟩ := issues_of_store hwf h.delivery ⟨_, _, _, h.value⟩ (h.store hread)
    rw [h.ident] at hiss
    exact Or.inr ⟨hread, hw.write hread, hiss, hself⟩

/-- The same, seen from later on. -/
theorem Picks.kind (hr : SystemRun p P tr w) (hx : x ∈ tr) (hp : Picks i id t wr d x) :
    ∃ c, Started tr i id c ∧
      (c.content = .read ∨ c.content = .write d ∧ Issues p i id t d x ∧ wr = i) := by
  obtain ⟨l₁, l₂, htr⟩ := List.append_of_mem hx
  obtain ⟨hrun, -, hs⟩ := hr.split htr
  obtain ⟨cmd, v, e, r, r', effs, hpk⟩ := hp.picked hs
  obtain ⟨c, hst, hkind⟩ := hpk.kind (wellFormed hrun)
  rw [htr]
  exact ⟨c, hst.append _, hkind.imp And.right And.right⟩

/-- At the start of an operation a majority of the processes has tags not above what the operation
    picks later, and below that for a write. -/
theorem pick_covers_start (hr : SystemRun p (HighestIsLatest p) tr w) (hx : x ∈ tr)
    (hp : Picks i id t wr d x) (hy : y ∈ tr) (hst : starts id y = true) :
    MajorityOf p fun q => sectorTag (y.pre.process q).sector ≤ tag t wr ∧
      ((∃ j h data, Started tr j id ⟨h, .write data⟩) →
        sectorTag (y.pre.process q).sector < tag t wr) := by
  obtain ⟨a, b, htr⟩ := List.append_of_mem hx
  obtain ⟨hrun, hP, hs⟩ := hr.split htr
  have hrun' : SystemRun p (NewTagLarger p) a x.pre :=
    hrun.weaken fun _ _ h => HighestIsLatest.newTagLarger h
  obtain ⟨cmd, v, e, r, r', effs, hpk⟩ := hp.picked hs
  have hlive := (wellFormed hrun).live i r hpk.delivery.register
  have hya : y ∈ a := by
    have hid := (evidence hrun).opId _ hpk.delivery.delivered
    rw [hpk.ident] at hid
    obtain ⟨y', hy', hst'⟩ := (opIds_iff hrun id).mp hid
    obtain rfl := start_unique hr (by rw [htr]; exact List.mem_append_left _ hy') hy hst' hst
    exact hy'
  -- an entry of the readlist that is not below the tag `q` had at the start
  have hmaj := hpk.completes.majority hrun hpk.delivery.register hpk.delivery.delivered hpk.value
  refine hmaj.mono fun q hq => ?_
  obtain ⟨e', he', hin⟩ := hq
  obtain ⟨e'', he'', hle⟩ : ∃ e'', (consulted r cmd.header.processIdentifier v).lookup q = some e'' ∧
      sectorTag (y.pre.process q).sector ≤ entryTag e'' := by
    by_cases hself : q = r.selfIdent
    · refine ⟨(r.ts, r.wr, r.val), by rw [hself]; exact AList.lookup_insert _, ?_⟩
      have hle := (sectorTag_pre_le hrun' hya q).1
      rw [hself, hlive.self, hlive.durable, sectorTag_mk] at hle
      rw [hself, hlive.self]
      exact hle
    · refine ⟨e', by rw [consulted, AList.lookup_insert_ne hself]; exact he', ?_⟩
      rw [hpk.ident] at hin
      exact value_fresh hrun' hin hya hst
  obtain ⟨hcov, hcov'⟩ := hpk.covers hP he''
  refine ⟨hle.trans hcov, fun hcall => hle.trans_lt (hcov' ?_)⟩
  obtain ⟨j, h, data, hwrite⟩ := hcall
  obtain ⟨c, hc, ⟨-, hread⟩ | ⟨hread, -⟩⟩ := hpk.kind (wellFormed hrun)
  · have hc' : Started tr i id c := by rw [htr]; exact hc.append _
    obtain ⟨-, rfl⟩ := hwrite.unique hr hc'
    simp at hread
  · exact hread

/-- After the callback of an operation a majority of the processes has tags not below what it has
    picked. -/
theorem callback_covers (hr : SystemRun p (NewTagLarger p) tr w) (htr : tr = l₁ ++ x :: l₂)
    {op : OperationSuccess} (hcb : .callback o op ∈ x.out) (hy : y ∈ l₂) {z : Step} (hz : z ∈ tr)
    (hp : Picks i o t wr d z) :
    MajorityOf p fun q => tag t wr ≤ sectorTag (y.pre.process q).sector := by
  obtain ⟨hrun, -, hs⟩ := hr.split htr
  obtain ⟨j, r, cmd, t', wr', d', -, -, -, hin, hmaj, -⟩ := callback_backed hrun hs hcb
  obtain ⟨z', hz', hp'⟩ := (phases hrun).writeProc _ _ _ _ _ hin
  obtain ⟨-, -, rfl, rfl, -⟩ := hp.unique hr hz (by rw [htr]; exact List.mem_append_left _ hz') hp'
  obtain ⟨a, b, rfl⟩ := List.append_of_mem hy
  have htr' : tr = (l₁ ++ x :: a) ++ y :: b := by rw [htr]; simp
  obtain ⟨hruny, -, -⟩ := hr.split htr'
  refine hmaj.mono fun q ⟨u, hu, _, _, _, _, _, _, _, _, _, _, hle, _⟩ => ?_
  have hu' : u ∈ l₁ ++ x :: a := List.mem_append_left _ (after_subset u hu)
  exact hle.trans (sectorTag_pre_le hruny hu' q).2

/-- Tags grow with real time, strictly so at a write. -/
theorem tags_in_real_time (hr : SystemRun p (HighestIsLatest p) tr w) (htr : tr = l₁ ++ x :: l₂)
    {op : OperationSuccess} (hcb : .callback o op ∈ x.out) (hy : y ∈ l₂) (hst : starts o' y = true)
    {z z' : Step} (hz : z ∈ tr) (hp : Picks i o t wr d z) (hz' : z' ∈ tr)
    (hp' : Picks j o' t' wr' d' z') :
    tag t wr ≤ tag t' wr' ∧
      ((∃ k h data, Started tr k o' ⟨h, .write data⟩) → tag t wr < tag t' wr') := by
  have hr' : SystemRun p (NewTagLarger p) tr w :=
    hr.weaken fun _ _ h => HighestIsLatest.newTagLarger h
  have hytr : y ∈ tr := by rw [htr]; simp [hy]
  obtain ⟨q, -, hge, hle, hlt⟩ :=
    (callback_covers hr' htr hcb hy hz hp).inter (pick_covers_start hr hz' hp' hytr hst)
  exact ⟨hge.trans hle, fun hw => hge.trans_lt (hlt hw)⟩

/-! ### Operations in the history -/

/-- The client commands of a run, in order. -/
def invocations (tr : Trace) : List (Uuid × Call SectorVec) := tr.filterMap invocationOf

theorem invocationOf_eq {o : Uuid × Call SectorVec} : invocationOf x = some o ↔
    ∃ i cmd cut, x.event = .clientCommand i cmd o.1 cut ∧ callOf cmd.content = o.2 := by
  obtain ⟨id, c⟩ := o
  unfold invocationOf
  cases hx : x.event with
  | clientCommand i cmd id' cut =>
    simp only [Option.some.injEq, Prod.mk.injEq, Event.clientCommand.injEq]
    constructor
    · rintro ⟨rfl, rfl⟩; exact ⟨i, cmd, cut, ⟨rfl, rfl, rfl, rfl⟩, rfl⟩
    · rintro ⟨_, _, _, ⟨rfl, rfl, rfl, rfl⟩, rfl⟩; exact ⟨rfl, rfl⟩
  | _ => simp

theorem mem_invocations {c : Call SectorVec} : (o, c) ∈ invocations tr ↔
    ∃ i cmd, Started tr i o cmd ∧ callOf cmd.content = c := by
  simp only [invocations, List.mem_filterMap, invocationOf_eq, Started]
  constructor
  · rintro ⟨x, hx, i, cmd, cut, hev, hc⟩; exact ⟨i, cmd, ⟨x, hx, cut, hev⟩, hc⟩
  · rintro ⟨i, cmd, ⟨x, hx, cut, hev⟩, hc⟩; exact ⟨x, hx, i, cmd, cut, hev, hc⟩

theorem invoke_not_mem_responsesOf {c : Call SectorVec} (x : Step) : .invoke o c ∉ responsesOf x := by
  intro hmem
  obtain ⟨e, -, he⟩ := List.mem_filterMap.mp hmem
  cases e <;> simp at he

theorem mem_history_invoke {c : Call SectorVec} : .invoke o c ∈ history tr ↔ (o, c) ∈ invocations tr := by
  simp [history, invocations, invoke_not_mem_responsesOf]

theorem mem_responsesOf {ret : Option SectorVec} : .respond o ret ∈ responsesOf x ↔
    ∃ op, .callback o op ∈ x.out ∧ ret = returnOf op.opReturn := by
  simp only [responsesOf, List.mem_filterMap]
  constructor
  · rintro ⟨e, he, heq⟩
    cases e with
    | callback f op =>
      obtain ⟨rfl, rfl⟩ : f = o ∧ returnOf op.opReturn = ret := by simpa using heq
      exact ⟨op, he, rfl⟩
    | _ => simp at heq
  · rintro ⟨op, he, rfl⟩
    exact ⟨_, he, rfl⟩

theorem mem_history_respond {ret : Option SectorVec} : .respond o ret ∈ history tr ↔
    ∃ x ∈ tr, ∃ op, .callback o op ∈ x.out ∧ ret = returnOf op.opReturn := by
  simp [history, mem_responsesOf]

/-- Operation ids are drawn once each. -/
theorem invocations_nodup (hr : SystemRun p P tr w) : ((invocations tr).map Prod.fst).Nodup := by
  have hboth : (invocations tr).map Prod.fst = w.opIds.reverse ∧ w.opIds.Nodup := by
    refine hr.invariant (I := fun tr w => (invocations tr).map Prod.fst = w.opIds.reverse ∧
      w.opIds.Nodup) (by simp [invocations, init]) ?_
    intro tr x hr ih _ hs
    have hsnoc : invocations (tr ++ [x]) = invocations tr ++ (invocationOf x).toList := by
      cases hx : invocationOf x <;> simp [invocations, hx]
    rw [hsnoc]
    cases step_stepped hs with
    | client hi =>
      obtain ⟨cut, hev⟩ := hi.event
      rw [hi.opIds]
      exact ⟨by simp [invocationOf, hev, ih.1], List.nodup_cons.mpr ⟨hi.fresh, ih.2⟩⟩
    | system hd =>
      obtain ⟨order, cut, hev⟩ := hd.event
      rw [hd.opIds]
      exact ⟨by simp [invocationOf, hev, ih.1], ih.2⟩
    | restart hq =>
      have hnone : invocationOf x = none := by
        cases hx : x.event with
        | clientCommand j cmd id cut => exact absurd hx (hq.event _ _ _ _)
        | _ => simp [invocationOf, hx]
      rw [hq.opIds, hnone]
      exact ⟨by simpa using ih.1, ih.2⟩
  rw [hboth.1]
  exact List.nodup_reverse.mpr hboth.2

/-- Real-time precedence in the history: a callback, and later a client command. -/
theorem precedes_history (h : Precedes (history tr) o o') : ∃ l₁ x l₂, tr = l₁ ++ x :: l₂ ∧
    (∃ op, .callback o op ∈ x.out) ∧ ∃ y ∈ l₂, starts o' y = true := by
  obtain ⟨ret, c, hsub⟩ := h
  rcases pair_sublist_flatMap hsub with ⟨x, hx, hsub⟩ | ⟨l₁, x, l₂, htr, hret, y, hy, hinv⟩
  · -- a step lists its client command first
    obtain ⟨m₁, m₂, hm, h₁, h₂⟩ := List.sublist_append_iff.mp hsub
    rcases m₁ with _ | ⟨a, m₁⟩
    · have hmem : .invoke o' c ∈ m₂ := by rw [List.nil_append] at hm; simp [← hm]
      exact absurd (h₂.subset hmem) (invoke_not_mem_responsesOf x)
    · obtain ⟨rfl, -⟩ := List.cons_eq_cons.mp hm
      simpa using h₁.subset (List.mem_cons_self ..)
  · refine ⟨l₁, x, l₂, htr, ?_, y, hy, ?_⟩
    · obtain ⟨op, hop, -⟩ := mem_responsesOf.mp (by simpa using hret)
      exact ⟨op, hop⟩
    · have hinv : invocationOf y = some (o', c) := by
        simpa [invoke_not_mem_responsesOf] using hinv
      obtain ⟨i, cmd, cut, hev, -⟩ := invocationOf_eq.mp hinv
      exact starts_iff.mpr ⟨i, cmd, cut, hev⟩

/-! ### The tags of operations -/

/-- The operation has picked something. -/
def HasPicked (tr : Trace) (id : Uuid) : Prop := ∃ x ∈ tr, PicksFor id x

/-- The order in which operations start. -/
def opNum (tr : Trace) (id : Uuid) : ℕ := tr.findIdx (starts id)

open Classical in
/-- The tag an operation has picked. -/
noncomputable def opTag (tr : Trace) (id : Uuid) : Tag :=
  if h : ∃ T : Tag, ∃ x ∈ tr, ∃ i t wr d, Picks i id t wr d x ∧ tag t wr = T then h.choose else tag 0 0

open Classical in
/-- The operations to put in order: those that have responded, and the writes that have picked. -/
noncomputable def operations (tr : Trace) : List (Uuid × Call SectorVec) :=
  (invocations tr).filter fun o => decide
    ((∃ ret, .respond o.1 ret ∈ history tr) ∨ (∃ v, o.2 = .write v) ∧ HasPicked tr o.1)

theorem opTag_eq (hr : SystemRun p P tr w) (hx : x ∈ tr) (hp : Picks i id t wr d x) :
    opTag tr id = tag t wr := by
  have hex : ∃ T : Tag, ∃ x ∈ tr, ∃ i t wr d, Picks i id t wr d x ∧ tag t wr = T :=
    ⟨_, x, hx, i, t, wr, d, hp, rfl⟩
  obtain ⟨y, hy, j, t', wr', d', hp', hT⟩ := hex.choose_spec
  obtain ⟨-, -, rfl, rfl, -⟩ := hp.unique hr hx hy hp'
  rw [opTag, dif_pos hex]
  exact hT.symm

theorem mem_operations {c : Call SectorVec} : (o, c) ∈ operations tr ↔ (o, c) ∈ invocations tr ∧
    ((∃ ret, .respond o ret ∈ history tr) ∨ (∃ v, c = .write v) ∧ HasPicked tr o) := by
  simp [operations]

/-- Whoever has responded has picked, and a read returns what it has picked. -/
theorem respond_picked (hr : SystemRun p P tr w) {ret : Option SectorVec}
    (h : .respond o ret ∈ history tr) : ∃ x ∈ tr, ∃ i cmd t wr d, Picks i o t wr d x ∧
      Started tr i o cmd ∧ (cmd.content = .read → ret = some d) := by
  obtain ⟨x, hx, op, hcb, rfl⟩ := mem_history_respond.mp h
  obtain ⟨l₁, l₂, htr⟩ := List.append_of_mem hx
  obtain ⟨hrun, -, hs⟩ := hr.split htr
  obtain ⟨i, r, cmd, t, wr, d, -, -, hst, hin, -, hret⟩ := callback_backed hrun hs hcb
  obtain ⟨z, hz, hp⟩ := (phases hrun).writeProc _ _ _ _ _ hin
  refine ⟨z, by rw [htr]; exact List.mem_append_left _ hz, i, cmd, t, wr, d, hp,
    by rw [htr]; exact hst.append _, fun hread => ?_⟩
  rcases hret with ⟨-, hop⟩ | ⟨⟨data, hwrite⟩, -⟩
  · rw [hop]; rfl
  · simp [hread] at hwrite

/-- What a read picks is the initial sector or has been issued. -/
theorem read_sourced (hr : SystemRun p P tr w) (hx : x ∈ tr) (hp : Picks i o t wr d x)
    {cmd : ClientRegisterCommand} (hst : Started tr i o cmd) (hread : cmd.content = .read) :
    (t = 0 ∧ wr = 0 ∧ d = .zeros) ∨ ∃ y ∈ tr, ∃ id, Issues p wr id t d y := by
  obtain ⟨l₁, l₂, htr⟩ := List.append_of_mem hx
  obtain ⟨hrun, -, hs⟩ := hr.split htr
  obtain ⟨cmd', v, e, r, r', effs, hpk⟩ := hp.picked hs
  rcases hpk.choice with ⟨-, rfl⟩ | ⟨hreading, -⟩
  · obtain ⟨⟨k, hk⟩, -⟩ := hpk.highest
    have hheld := held_of_consulted hpk.delivery.register hpk.delivery.delivered hpk.value hk
    rcases held_sourced hrun hheld with hzero | ⟨y, hy, hiss⟩
    · exact Or.inl hzero
    · exact Or.inr ⟨y, by rw [htr]; exact List.mem_append_left _ hy, hiss⟩
  · obtain ⟨c, hc, ⟨hreading', -⟩ | ⟨-, hwrite, -⟩⟩ := hpk.kind (wellFormed hrun)
    · simp [hreading] at hreading'
    · obtain ⟨-, rfl⟩ := hst.unique hr (by rw [htr]; exact hc.append _)
      simp [hread] at hwrite

/-- What a write picks has been issued, by its own process. -/
theorem write_issues (hr : SystemRun p P tr w) (hx : x ∈ tr) (hp : Picks i o t wr d x)
    {cmd : ClientRegisterCommand} (hst : Started tr j o cmd) {v : SectorVec}
    (hwrite : cmd.content = .write v) : Issues p i o t d x ∧ wr = i := by
  obtain ⟨c, hc, hread | ⟨-, hiss, hwr⟩⟩ := hp.kind hr hx
  · obtain ⟨-, rfl⟩ := hst.unique hr hc
    simp [hread] at hwrite
  · exact ⟨hiss, hwr⟩

/-- Every operation to be put in order has picked. -/
theorem operation_picked (hr : SystemRun p P tr w) {c : Call SectorVec} (h : (o, c) ∈ operations tr) :
    ∃ x ∈ tr, ∃ i cmd t wr d, Picks i o t wr d x ∧ Started tr i o cmd ∧ callOf cmd.content = c := by
  obtain ⟨hinv, hcase⟩ := mem_operations.mp h
  obtain ⟨j, cmd, hst, hc⟩ := mem_invocations.mp hinv
  obtain ⟨x, hx, i, t, wr, d, hp⟩ : HasPicked tr o := by
    rcases hcase with ⟨ret, hret⟩ | ⟨-, hpicked⟩
    · obtain ⟨x, hx, i, cmd, t, wr, d, hp, -⟩ := respond_picked hr hret
      exact ⟨x, hx, i, t, wr, d, hp⟩
    · exact hpicked
  obtain ⟨c', hst', -⟩ := hp.kind hr hx
  obtain ⟨rfl, -⟩ := hst.unique hr hst'
  exact ⟨x, hx, j, cmd, t, wr, d, hp, hst, hc⟩

/-- An operation that starts after the callback of another has a larger number. -/
theorem opNum_lt (hr : SystemRun p P tr w) (htr : tr = l₁ ++ x :: l₂) {op : OperationSuccess}
    (hcb : .callback o op ∈ x.out) (hy : y ∈ l₂) (hst : starts o' y = true) :
    opNum tr o < opNum tr o' := by
  obtain ⟨hrun, -, hs⟩ := hr.split htr
  obtain ⟨i, r, cmd, t, wr, d, -, -, ⟨z, hz, cut, hev⟩, -⟩ := callback_backed hrun hs hcb
  have hbefore : l₁.findIdx (starts o) < l₁.length :=
    List.findIdx_lt_length_of_exists ⟨z, hz, starts_iff.mpr ⟨_, _, _, hev⟩⟩
  obtain ⟨a, b, rfl⟩ := List.append_of_mem hy
  have htr' : tr = (l₁ ++ x :: a) ++ y :: b := by rw [htr]; simp
  have hafter : l₁.findIdx (starts o') = l₁.length := by
    refine List.findIdx_eq_length.mpr fun u hu => ?_
    simpa using fresh_at_start hr htr' hst u (List.mem_append_left _ hu)
  rw [opNum, opNum, htr, List.findIdx_append, List.findIdx_append, if_pos hbefore, if_neg (by omega)]
  omega

/-- Two writes that have picked the same tag are one. -/
theorem write_tags_distinct (hr : SystemRun p (NewTagLarger p) tr w) (hx : x ∈ tr) (hy : y ∈ tr)
    (hp : Picks i o t wr d x) (hp' : Picks j o' t' wr' d' y) (hiss : Issues p i o t d x ∧ wr = i)
    (hiss' : Issues p j o' t' d' y ∧ wr' = j) (heq : tag t wr = tag t' wr') : o = o' := by
  obtain ⟨hiss, rfl⟩ := hiss
  obtain ⟨hiss', rfl⟩ := hiss'
  obtain ⟨rfl, rfl⟩ := tag_inj.mp heq
  obtain rfl := hiss.unique hr hx hy hiss'
  obtain ⟨cmd, order, cut, hev, rfl, -⟩ := hp
  obtain ⟨cmd', order', cut', hev', rfl, -⟩ := hp'
  rw [hev] at hev'
  cases hev'
  rfl

theorem callOf_read {c : ClientRegisterCommandContent} (h : callOf c = .read) : c = .read := by
  cases c <;> simp [callOf] at h ⊢

theorem callOf_write {c : ClientRegisterCommandContent} {v : SectorVec} (h : callOf c = .write v) :
    c = .write v := by
  cases c <;> simp [callOf] at h ⊢
  exact h

/-- In real time the tags of operations do not decrease, and increase at a write. -/
theorem opTag_ordered (hr : SystemRun p (HighestIsLatest p) tr w) {c c' : Call SectorVec}
    (ho : (o, c) ∈ operations tr) (ho' : (o', c') ∈ operations tr) (hprec : Precedes (history tr) o o') :
    opTag tr o < opTag tr o' ∨ opTag tr o = opTag tr o' ∧ c' = .read := by
  obtain ⟨l₁, x, l₂, htr, ⟨op, hcb⟩, y, hy, hst⟩ := precedes_history hprec
  obtain ⟨z, hz, i, cmd, t, wr, d, hp, -, -⟩ := operation_picked hr ho
  obtain ⟨z', hz', j, cmd', t', wr', d', hp', hst', hc'⟩ := operation_picked hr ho'
  rw [opTag_eq hr hz hp, opTag_eq hr hz' hp']
  obtain ⟨hle, hlt⟩ := tags_in_real_time hr htr hcb hy hst hz hp hz' hp'
  cases c' with
  | read => exact (lt_or_eq_of_le hle).imp_right fun heq => ⟨heq, rfl⟩
  | write v =>
    obtain ⟨hd, content⟩ := cmd'
    obtain rfl : content = .write v := callOf_write hc'
    exact Or.inl (hlt ⟨j, hd, v, hst'⟩)

/-- Writes have distinct tags. -/
theorem opTag_distinct (hr : SystemRun p (NewTagLarger p) tr w) {v v' : SectorVec}
    (ho : (o, .write v) ∈ operations tr) (ho' : (o', .write v') ∈ operations tr)
    (heq : opTag tr o = opTag tr o') : o = o' ∧ v = v' := by
  obtain ⟨z, hz, i, cmd, t, wr, d, hp, hst, hc⟩ := operation_picked hr ho
  obtain ⟨z', hz', j, cmd', t', wr', d', hp', hst', hc'⟩ := operation_picked hr ho'
  rw [opTag_eq hr hz hp, opTag_eq hr hz' hp'] at heq
  obtain rfl := write_tags_distinct hr hz hz' hp hp' (write_issues hr hz hp hst (callOf_write hc))
    (write_issues hr hz' hp' hst' (callOf_write hc')) heq
  obtain ⟨-, rfl⟩ := hst.unique hr hst'
  exact ⟨rfl, Call.write.inj (hc.symm.trans hc')⟩

/-- A read returns the zeros of the initial state, which no write precedes, or the data of the write with
    its own tag. -/
theorem opTag_reads (hr : SystemRun p P tr w) (ho : (o, .read) ∈ operations tr)
    {ret : Option SectorVec} (hret : .respond o ret ∈ history tr) :
    ret = some .zeros ∧ (∀ o' v, (o', .write v) ∈ operations tr → opTag tr o < opTag tr o') ∨
      ∃ o' v, (o', .write v) ∈ operations tr ∧ opTag tr o' = opTag tr o ∧ ret = some v := by
  obtain ⟨z, hz, i, cmd, t, wr, d, hp, hst, hc⟩ := operation_picked hr ho
  obtain ⟨z', hz', j, cmd', t', wr', d', hp', hst', hval⟩ := respond_picked hr hret
  obtain ⟨-, -, -, -, rfl⟩ := hp.unique hr hz hz' hp'
  obtain ⟨-, rfl⟩ := hst.unique hr hst'
  rw [hval (callOf_read hc), opTag_eq hr hz hp]
  rcases read_sourced hr hz hp hst (callOf_read hc) with ⟨rfl, rfl, rfl⟩ | ⟨y, hy, id, hiss⟩
  · -- every write has a positive rank, so a larger tag than the initial one
    refine Or.inl ⟨rfl, fun o' v ho' => ?_⟩
    obtain ⟨u, hu, k, cmd', t', wr', d', hpu, hstu, hcu⟩ := operation_picked hr ho'
    obtain ⟨hiss, rfl⟩ := write_issues hr hu hpu hstu (callOf_write hcu)
    rw [opTag_eq hr hu hpu]
    refine lt_of_le_of_ne (tag_zero_le _ _) fun h => hiss.rank_pos hr hu (tag_inj.mp h).2.symm
  · obtain ⟨h, hst'⟩ := hiss.started_of_mem hr hy
    refine Or.inr ⟨id, d, mem_operations.mpr ⟨mem_invocations.mpr ⟨wr, _, hst', rfl⟩,
      Or.inr ⟨⟨d, rfl⟩, y, hy, wr, t, wr, d, hiss.1⟩⟩, opTag_eq hr hy hiss.1, rfl⟩

/-- The tags picked in a run meet what the timestamp argument needs. -/
theorem tagging (hr : SystemRun p (HighestIsLatest p) tr w) :
    Tagging (opTag tr) (opNum tr) SectorVec.zeros (history tr) (operations tr) := by
  refine ⟨?_, ?_, ?_, ?_, ?_, ?_, ?_, fun o ho ret hret => opTag_reads hr ho hret⟩
  · exact (List.filter_sublist.map _).nodup (invocations_nodup hr)
  · rintro ⟨o, c⟩ h
    exact mem_history_invoke.mpr (mem_operations.mp h).1
  · intro o ret h
    obtain ⟨x, hx, i, cmd, t, wr, d, -, hst, -⟩ := respond_picked hr h
    exact ⟨_, mem_operations.mpr ⟨mem_invocations.mpr ⟨i, cmd, hst, rfl⟩, Or.inl ⟨ret, h⟩⟩⟩
  · rintro ⟨o, c⟩ h
    exact (mem_operations.mp h).2.imp_right And.left
  · rintro ⟨o, c⟩ - ⟨o', c'⟩ - hprec
    obtain ⟨l₁, x, l₂, htr, ⟨op, hcb⟩, y, hy, hst⟩ := precedes_history hprec
    exact opNum_lt hr htr hcb hy hst
  · rintro ⟨o, c⟩ ho ⟨o', c'⟩ ho' hprec
    exact opTag_ordered hr ho ho' hprec
  · rintro ⟨o, c⟩ ho ⟨o', c'⟩ ho' v v' rfl rfl heq
    have hr' : SystemRun p (NewTagLarger p) tr w :=
      hr.weaken fun _ _ h => HighestIsLatest.newTagLarger h
    obtain ⟨rfl, rfl⟩ := opTag_distinct hr' ho ho' heq
    rfl

/-- CORRECT (linearizability, under the condition): the history of every run that meets
    `HighestIsLatest` at each quorum, of any length, with any interleaving, delay, reordering,
    duplication and loss of messages, and with crashes, is linearizable. -/
theorem history_linearizable (hr : SystemRun p (HighestIsLatest p) tr w) :
    Linearizable SectorVec.zeros (history tr) :=
  linearizable_of_tags (tagging hr)

/-! ### Runs -/

section run

-- sectors of 4096 bytes are compared byte by byte when a concrete run is replayed
set_option maxRecDepth 40000

/-- Process 1 writes at processes 1 and 2 and stores at 2 and 3; process 3 then reads from processes 1 and 3. -/
def writtenThenRead : List Event :=
  [call 1 1 (.write (filled 1)), deliver 1 1 1 .readProc, deliver 2 1 1 .readProc,
   deliver 1 1 1 (.value 0 0 .zeros), deliver 1 2 1 (.value 0 0 .zeros),
   deliver 2 1 1 (.writeProc 1 1 (filled 1)), deliver 3 1 1 (.writeProc 1 1 (filled 1)),
   deliver 1 2 1 .ack, deliver 1 3 1 .ack,
   .crash 2,
   call 3 2 .read, deliver 1 3 2 .readProc, deliver 3 3 2 .readProc,
   deliver 3 1 2 (.value 1 1 (filled 1)), deliver 3 3 2 (.value 1 1 (filled 1)),
   deliver 1 3 2 (.writeProc 1 1 (filled 1)), deliver 3 3 2 (.writeProc 1 1 (filled 1)),
   deliver 3 1 2 .ack, deliver 3 3 2 .ack]

/-- The run meets the condition, so its history is linearizable. -/
theorem writtenThenRead_linearizable :
    ∃ tr w, SystemRun threeProcesses (HighestIsLatest threeProcesses) tr w ∧
      history tr = [.invoke (uuid 1) (.write (filled 1)), .respond (uuid 1) none,
        .invoke (uuid 2) .read, .respond (uuid 2) (some (filled 1))] ∧
      Linearizable SectorVec.zeros (history tr) := by
  obtain ⟨tr, w, hr, hobs⟩ := run_of_events threeProcesses (HighestIsLatest threeProcesses) writtenThenRead
    (fun tr _ => decide (history tr = [.invoke (uuid 1) (.write (filled 1)), .respond (uuid 1) none,
        .invoke (uuid 2) .read, .respond (uuid 2) (some (filled 1))])) (by decide +kernel)
  exact ⟨tr, w, hr, of_decide_eq_true hobs, history_linearizable hr⟩

/-- Steps without a crash: handlers that run to their end. -/
def Uninterrupted (_ : System) : Event → Prop
  | .clientCommand _ _ _ cut | .systemCommand _ _ _ cut => cut = none
  | .crash _ | .build _ => False

instance (w : System) (e : Event) : Decidable (Uninterrupted w e) := by
  cases e <;> dsimp only [Uninterrupted] <;> infer_instance

/-- Process 3 writes at processes 1 and 3, under (1, 3); process 1 then writes at processes 1 and 2,
    under (2, 1); process 2 then reads from processes 2 and 3, finds (2, 1) and (1, 3), and returns
    the data of the latter, which has the higher rank. -/
def staleRead : List Event :=
  [call 3 1 (.write (filled 1)), deliver 1 3 1 .readProc, deliver 3 3 1 .readProc,
   deliver 3 1 1 (.value 0 0 .zeros), deliver 3 3 1 (.value 0 0 .zeros),
   deliver 3 3 1 (.writeProc 1 3 (filled 1)), deliver 1 3 1 (.writeProc 1 3 (filled 1)),
   deliver 3 3 1 .ack, deliver 3 1 1 .ack,
   call 1 2 (.write (filled 2)), deliver 1 1 2 .readProc, deliver 2 1 2 .readProc,
   deliver 1 1 2 (.value 1 3 (filled 1)), deliver 1 2 2 (.value 0 0 .zeros),
   deliver 1 1 2 (.writeProc 2 1 (filled 2)), deliver 2 1 2 (.writeProc 2 1 (filled 2)),
   deliver 1 1 2 .ack, deliver 1 2 2 .ack,
   call 2 3 .read, deliver 2 2 3 .readProc, deliver 3 2 3 .readProc,
   deliver 2 2 3 (.value 2 1 (filled 2)), deliver 2 3 3 (.value 1 3 (filled 1)),
   deliver 3 2 3 (.writeProc 1 3 (filled 1)), deliver 2 2 3 (.writeProc 1 3 (filled 1)),
   deliver 2 3 3 .ack, deliver 2 2 3 .ack]

/-- Without the condition a history need not be linearizable, even when nobody crashes. -/
theorem history_not_linearizable : ¬ ∀ p tr w, SystemRun p Uninterrupted tr w →
    Linearizable SectorVec.zeros (history tr) := by
  intro hall
  obtain ⟨tr, w, hr, hobs⟩ := run_of_events threeProcesses Uninterrupted staleRead
    (fun tr _ => decide (history tr =
      staleHistory (uuid 1) (uuid 2) (uuid 3) (filled 1) (filled 2))) (by decide +kernel)
  have hlin := hall threeProcesses tr w hr
  rw [of_decide_eq_true hobs] at hlin
  exact staleHistory_not_linearizable (by decide) (by decide) (by decide) (by decide) hlin

end run

end AtomicDisk.Register
