import AtomicDisk.Register.Algorithm
import AtomicDisk.Register.Linearizability
import AtomicDisk.Register.Timestamps
import AtomicDisk.Schemes.Simulation

/-! `atomic_register.rs` follows the algorithm. What a register is of an instance, and a message in the network of
    a message of the algorithm, is a matter of reading one as the other (`instanceOf`, `messageOf`, `stateOf`); then
    every step of the registers is a step of the algorithm with the same returns, as long as the entry that
    `max_by` finds is `highest(readlist)` and `maxts + 1` does not wrap around. A panic is a crash of the
    algorithm. -/

namespace AtomicDisk.Register
open Schemes

/-- An entry of a readlist. -/
def tripleOf (e : ReadEntry) : ℕ × ℕ × SectorVec := (e.1.toNat, e.2.1.toNat, e.2.2)

def listOf (m : HashMap UInt8 ReadEntry) (q : UInt8) : Option (ℕ × ℕ × SectorVec) := (m.lookup q).map tripleOf

/-- A register as an instance of the algorithm. -/
def instanceOf (r : AtomicRegisterState Uuid) : Nnar.Instance UInt8 ℕ SectorVec Uuid where
  ts := r.ts.toNat
  wr := r.wr.toNat
  val := r.val
  readlist := listOf r.readlist
  acklist := r.acklist
  reading := r.reading
  writing := r.writing
  writeval := r.writeval
  readval := r.readval
  writePhase := r.writePhase
  opId := r.opId

/-- The content of a message, for operation `id`. -/
def contentOf (id : Uuid) : SystemRegisterCommandContent → Nnar.Message ℕ SectorVec Uuid
  | .readProc => .readProc id
  | .value t wr d => .value id t.toNat wr.toNat d
  | .writeProc t wr d => .writeProc id t.toNat wr.toNat d
  | .ack => .ack id

def messageOf (cmd : SystemRegisterCommand) : Nnar.Message ℕ SectorVec Uuid :=
  contentOf cmd.header.msgIdent cmd.content

/-- What a handler does as a trigger of the algorithm. -/
def triggerOf : Effect Uuid → Nnar.Trigger UInt8 ℕ SectorVec Uuid
  | .send m => .send m.target (messageOf m.cmd)
  | .broadcast cmd => .broadcast (messageOf cmd)
  | .write _ s => .store s.2.1.toNat s.2.2.toNat s.1
  | .callback _ ⟨_, .read readData⟩ => .readReturn readData
  | .callback _ ⟨_, .write⟩ => .writeReturn

/-- What is stored for a sector. -/
def stableOf (s : SectorVec × UInt64 × UInt8) : ℕ × ℕ × SectorVec := (s.2.1.toNat, s.2.2.toNat, s.1)

/-- All registers of a sector as a state of the algorithm. -/
def stateOf (w : System) : Nnar.State UInt8 ℕ SectorVec Uuid where
  instances i := (w.process i).register.map instanceOf
  stable i := stableOf (w.process i).sector
  messages := {x | ∃ m ∈ w.network, x = (m.cmd.header.processIdentifier, m.target, messageOf m.cmd)}
  ids := {id | id ∈ w.opIds}

variable {p : Params} {P : System → Event → Prop} {tr : Trace} {w : System} {x : Step}
  {i q : UInt8} {id : Uuid} {r r' : AtomicRegisterState Uuid} {effs es : List (Effect Uuid)}
  {h : SystemCommandHeader} {c : SystemRegisterCommandContent}

/-! ### The readlist -/

@[simp] theorem listOf_empty : listOf ∅ = fun _ => none := rfl

theorem listOf_insert (m : HashMap UInt8 ReadEntry) (q : UInt8) (e : ReadEntry) :
    listOf (m.insert q e) = Function.update (listOf m) q (some (tripleOf e)) := by
  funext k
  by_cases hk : k = q
  · rw [hk, listOf, AList.lookup_insert, Function.update_self, Option.map_some]
  · rw [listOf, AList.lookup_insert_ne hk, Function.update_of_ne hk, listOf]

/-- The number of entries, if all are of processes. -/
theorem entries_eq {m : HashMap UInt8 ReadEntry} (hm : ∀ k ∈ m.dom, k ∈ processes p) :
    Nnar.entries (processes p) (listOf m) = m.len := by
  rw [HashMap.len_eq_card, Nnar.entries]
  congr 1
  ext k
  rw [Finset.mem_filter, HashMap.mem_dom, listOf, Option.isSome_map, Option.isSome_iff_exists]
  exact ⟨fun h => h.2, fun h => ⟨hm k (HashMap.mem_dom.mpr h), h⟩⟩

/-- The entry of highest rank is `highest(readlist)`, if it has the largest timestamp. -/
theorem isHighest_of_latest {m : HashMap UInt8 ReadEntry} {e : ReadEntry} (he : Highest m e)
    (hlatest : ∀ e' ∈ m.entries, e'.2.1.toNat ≤ e.1.toNat) : Nnar.IsHighest (listOf m) (tripleOf e) := by
  obtain ⟨⟨k, hk⟩, hmax⟩ := he
  refine ⟨⟨k, by rw [listOf, hk, Option.map_some]⟩, fun q e' he' => ?_⟩
  obtain ⟨e', hq, rfl⟩ := Option.map_eq_some_iff.mp he'
  rw [Prod.Lex.toLex_le_toLex]
  have ht := hlatest ⟨q, e'⟩ (AList.mem_lookup_iff.mp hq)
  rcases Nat.lt_or_eq_of_le ht with hlt | heq
  · exact Or.inl hlt
  · exact Or.inr ⟨heq, UInt8.le_iff_toNat_le.mp (hmax q e' hq)⟩

/-! ### One handler -/

/-- What the readlist is to be counted with. -/
structure Regular (p : Params) (i : UInt8) (r : AtomicRegisterState Uuid) : Prop where
  self : r.selfIdent = i
  count : r.processesCount = p.processesCount
  readlist : ∀ k ∈ r.readlist.dom, k ∈ processes p
  heard : (r.reading || r.writing) = true → r.callback ≠ none

theorem Regular.entries (hr : Regular p i r) (hq : q ∈ processes p) (e : ReadEntry) :
    Nnar.entries (processes p) (listOf (collected r q e)) = (collected r q e).len := by
  refine entries_eq fun k hk => ?_
  obtain ⟨v, hv⟩ := HashMap.mem_dom.mp hk
  by_cases heq : k = q
  · rwa [heq]
  · rw [collected, AList.lookup_insert_ne heq] at hv
    exact hr.readlist k (HashMap.mem_dom.mpr ⟨v, hv⟩)

theorem Regular.majority (hr : Regular p i r) (n : ℕ) : (processes p).card / 2 < n ↔ Majority r n := by
  rw [Majority, hr.count, card_processes]

/-- A handler reacts as the algorithm does. -/
theorem Handled.reacts (hh : Handled p.overflowChecks r h c r' effs) (hr : Regular p i r)
    (hq : h.processIdentifier ∈ processes p)
    (hlatest : ∀ v e, c = .value v.1 v.2.1 v.2.2 → Completes r h v → Highest (consulted r h.processIdentifier v) e →
      (∀ e' ∈ (consulted r h.processIdentifier v).entries, e'.2.1.toNat ≤ e.1.toNat) ∧
        (r.reading = false → Incrementable p e.1)) :
    Nnar.Reacts (processes p) UInt8.toNat i (instanceOf r) (.deliver h.processIdentifier (contentOf h.msgIdent c))
      (instanceOf r') (effs.map triggerOf) := by
  obtain rfl := hr.self
  have hcollected : ∀ v, listOf (collected r h.processIdentifier v) =
      Function.update (listOf r.readlist) h.processIdentifier (some (tripleOf v)) := fun v => listOf_insert ..
  have hconsulted : ∀ v, listOf (consulted r h.processIdentifier v) =
      Function.update (listOf (collected r h.processIdentifier v)) r.selfIdent
        (some (r.ts.toNat, r.wr.toNat, r.val)) := by
    intro v
    rw [consulted, listOf_insert]
    rfl
  have hmany : ∀ v, Majority r (collected r h.processIdentifier v).len ↔
      (processes p).card / 2 < Nnar.entries (processes p) (listOf (collected r h.processIdentifier v)) := by
    intro v
    rw [hr.entries hq, hr.majority]
  cases hh with
  | readProc => exact .readProc
  | @valueStale t wr d id hop hstale =>
    refine .valueNone (e := tripleOf (t, wr, d)) ?_
    rintro ⟨hid, hphase⟩
    obtain rfl : h.msgIdent = id := Option.some.inj (hid.trans hop)
    simp [instanceOf] at hphase
    simp [hphase] at hstale
  | @valueCollect t wr d hop hphase hfew =>
    refine .valueFew (e := tripleOf (t, wr, d)) hop.symm hphase (hcollected _) ?_
    rintro ⟨hmaj, hwork⟩
    refine hfew ⟨(hmany _).mpr hmaj, ?_⟩
    simpa [instanceOf] using hwork
  | @valueRead t wr d e hop hphase hmaj hread hhigh =>
    obtain ⟨hlate, -⟩ := hlatest (t, wr, d) e rfl ⟨hop, hphase, hmaj, by simp [hread]⟩ hhigh
    have hmax := isHighest_of_latest hhigh hlate
    rw [hconsulted] at hmax
    exact .valueRead (e := tripleOf (t, wr, d)) hop.symm hphase (hcollected _) ((hmany _).mp hmaj) hmax hread
  | @valueWrite t wr d e ts hop hphase hmaj hread hwrite hhigh hadd =>
    obtain ⟨hlate, hinc⟩ := hlatest (t, wr, d) e rfl ⟨hop, hphase, hmaj, by simp [hwrite]⟩ hhigh
    have hmax := isHighest_of_latest hhigh hlate
    have hts := (hinc hread).add hadd
    rw [hconsulted] at hmax
    have hreacts : Nnar.Reacts (processes p) UInt8.toNat r.selfIdent (instanceOf r) _ _ _ :=
      .valueWrite (e := tripleOf (t, wr, d)) hop.symm hphase (hcollected _) ((hmany _).mp hmaj) hmax hread hwrite
    rw [← hts] at hreacts
    exact hreacts
  | writeProcAdopt hlt => exact .writeProcNewer hlt
  | writeProcKeep hle => exact .writeProcOlder (not_lt.mpr hle)
  | @ackStale id hop hstale =>
    refine .ackNone ?_
    rintro ⟨hid, hphase⟩
    obtain rfl : h.msgIdent = id := Option.some.inj (hid.trans hop)
    simp [instanceOf] at hphase
    simp [hphase] at hstale
  | ackCollect hop hphase hfew =>
    refine .ackFew hop.symm hphase ?_
    rintro ⟨hmaj, hwork⟩
    refine hfew ⟨(hr.majority _).mp hmaj, ?_⟩
    simpa [instanceOf] using hwork
  | ackRead hop hphase hmaj hread => exact .ackRead hop.symm hphase ((hr.majority _).mpr hmaj) hread
  | ackWrite hop hphase hmaj hread hwrite => exact .ackWrite hop.symm hphase ((hr.majority _).mpr hmaj) hread hwrite
  | ackReadUnheard _ _ _ hread hcb => exact absurd hcb (hr.heard (by simp [hread]))
  | ackWriteUnheard _ _ _ _ hwrite hcb => exact absurd hcb (hr.heard (by simp [hwrite]))

/-! ### One step -/

theorem stableOf_stored (s : SectorVec × UInt64 × UInt8) (hidx : ∀ idx s, .write idx s ∈ es → idx = p.sectorIdx) :
    stableOf (stored p s es) = Nnar.stored (stableOf s) (es.map triggerOf) := by
  induction es generalizing s with
  | nil => rfl
  | cons e es ih =>
    have hrest := fun s => ih s fun idx s' h => hidx idx s' (List.mem_cons_of_mem _ h)
    cases e with
    | write idx s' =>
      obtain rfl : idx = p.sectorIdx := hidx idx s' (List.mem_cons_self ..)
      simpa [stored, Nnar.stored, triggerOf, stableOf] using hrest s'
    | send | broadcast => exact hrest s
    | callback f op => rcases op with ⟨rid, _ | _⟩ <;> exact hrest s

theorem mem_triggers_send {t : UInt8} {m : Nnar.Message ℕ SectorVec Uuid} (h : .send t m ∈ es.map triggerOf) :
    ∃ m', .send m' ∈ es ∧ m'.target = t ∧ messageOf m'.cmd = m := by
  obtain ⟨e, he, heq⟩ := List.mem_map.mp h
  cases e with
  | send m' =>
    obtain ⟨rfl, rfl⟩ := Nnar.Trigger.send.inj heq
    exact ⟨m', he, rfl, rfl⟩
  | broadcast | write => cases heq
  | callback f op => rcases op with ⟨rid, _ | _⟩ <;> cases heq

theorem mem_triggers_broadcast {m : Nnar.Message ℕ SectorVec Uuid} (h : .broadcast m ∈ es.map triggerOf) :
    ∃ cmd, .broadcast cmd ∈ es ∧ messageOf cmd = m := by
  obtain ⟨e, he, heq⟩ := List.mem_map.mp h
  cases e with
  | broadcast cmd =>
    obtain rfl := Nnar.Trigger.broadcast.inj heq
    exact ⟨cmd, he, rfl⟩
  | send | write => cases heq
  | callback f op => rcases op with ⟨rid, _ | _⟩ <;> cases heq

/-- The messages of the effects are those of the triggers. -/
theorem mem_triggered (hown : ∀ m ∈ sent p es, m.cmd.header.processIdentifier = i)
    (y : UInt8 × UInt8 × Nnar.Message ℕ SectorVec Uuid) : y ∈ Nnar.sent (processes p) i (es.map triggerOf) ↔
      ∃ m ∈ sent p es, y = (m.cmd.header.processIdentifier, m.target, messageOf m.cmd) := by
  constructor
  · rintro ⟨rfl, hsend | ⟨hcast, htarget⟩⟩
    · obtain ⟨m, hm, ht, hc⟩ := mem_triggers_send hsend
      have hmem : m ∈ sent p es := mem_sent.mpr (Or.inl hm)
      exact ⟨m, hmem, by rw [hown m hmem, ht, hc]⟩
    · obtain ⟨cmd, hcmd, hc⟩ := mem_triggers_broadcast hcast
      have hmem : ⟨cmd, y.2.1⟩ ∈ sent p es := mem_sent.mpr (Or.inr ⟨hcmd, mem_processes.mp htarget⟩)
      exact ⟨_, hmem, by rw [hown _ hmem, hc]⟩
  · rintro ⟨m, hm, rfl⟩
    refine ⟨hown m hm, ?_⟩
    rcases mem_sent.mp hm with hsend | ⟨hcast, htarget⟩
    · exact Or.inl (List.mem_map_of_mem hsend)
    · exact Or.inr ⟨List.mem_map_of_mem hcast, mem_processes.mpr htarget⟩

/-- What a step leaves is what the triggers leave. -/
theorem Moved.stateOf {reg : Option (AtomicRegisterState Uuid)} {pend : Option Uuid}
    (hm : Moved p x i reg pend es) (hown : ∀ m ∈ sent p es, m.cmd.header.processIdentifier = i)
    (hidx : ∀ idx s, .write idx s ∈ es → idx = p.sectorIdx) : stateOf x.post =
      { (stateOf x.pre).after (processes p) i (reg.map instanceOf) (es.map triggerOf) with
        ids := {id | id ∈ x.post.opIds} } := by
  ext1
  · funext j
    rcases eq_or_ne j i with rfl | hne
    · simp [Register.stateOf, Nnar.State.after, hm.register]
    · simp [Register.stateOf, Nnar.State.after, hne, hm.other j hne]
  · funext j
    rcases eq_or_ne j i with rfl | hne
    · simp [Register.stateOf, Nnar.State.after, hm.sector, stableOf_stored _ hidx]
    · simp [Register.stateOf, Nnar.State.after, hne, hm.other j hne]
  · ext y
    simp only [Register.stateOf, Nnar.State.after, hm.network, Set.mem_union, mem_triggered hown, Set.mem_ofPred_eq,
      List.mem_append, or_and_right, exists_or]
  · rfl

/-- What happens in a step, with where a process is that goes down or comes up. -/
inductive Happens (p : Params) (x : Step) : Prop
  | client {i : UInt8} {cmd : ClientRegisterCommand} {id : Uuid} {r : AtomicRegisterState Uuid} :
      Invocation p x i cmd id r → Happens p x
  | system {i : UInt8} {cmd : SystemRegisterCommand} {r r' : AtomicRegisterState Uuid}
      {effs : List (Effect Uuid)} : Delivery p x i cmd r r' effs → Happens p x
  | down {i : UInt8} {r : AtomicRegisterState Uuid} : (x.pre.process i).register = some r →
      Moved p x i none none [] → x.post.opIds = x.pre.opIds → invocationOf x = none → Happens p x
  | up {i : UInt8} : i ∈ processes p → (x.pre.process i).register = none →
      Moved p x i (some (buildAtomicRegister i p.sectorIdx p.processesCount (x.pre.process i).sector)) none [] →
      x.post.opIds = x.pre.opIds → invocationOf x = none → Happens p x

theorem step_happens (hs : step p x.pre x.event = some (x.post, x.out)) : Happens p x := by
  cases step_stepped hs with
  | client hi => exact .client hi
  | system hd => exact .system hd
  | restart hq =>
    obtain ⟨w, e, es, w'⟩ := x
    cases e with
    | clientCommand i cmd uuid cut => exact absurd rfl (hq.event i cmd uuid cut)
    | systemCommand i cmd order cut =>
      cases hr : (w.process i).register with
      | none => simp [step, hr] at hs
      | some r =>
        cases hcmd : systemCommand p.overflowChecks order r cmd with
        | none =>
          simp only [step, hr, hcmd] at hs
          split at hs
          · obtain ⟨rfl, rfl⟩ := Prod.mk.inj (Option.some.inj hs)
            exact .down hr (moved_of_perform rfl rfl rfl) rfl rfl
          · cases hs
        | some y => exact .system (delivery_of_step hs rfl hr hcmd)
    | crash i =>
      simp only [step] at hs
      split at hs
      · cases hs
      · rename_i r hr
        obtain ⟨rfl, rfl⟩ := Prod.mk.inj (Option.some.inj hs)
        exact .down hr (moved_of_perform rfl rfl rfl) rfl rfl
    | build i =>
      simp only [step] at hs
      split at hs
      · cases hs
      · rename_i hr
        split at hs
        · rename_i hi
          obtain ⟨rfl, rfl⟩ := Prod.mk.inj (Option.some.inj hs)
          exact .up (mem_processes.mpr hi) hr (moved_of_perform rfl rfl rfl) rfl rfl
        · cases hs

/-- What clients see of a step. -/
def historyAt (x : Step) : List (HEvent Uuid SectorVec) :=
  (invocationOf x).toList.map (fun o => .invoke o.1 o.2) ++ responsesOf x

theorem returns_eq (h : ∀ f op, .callback f op ∈ es → r.opId = some f) :
    Nnar.returns r.opId (es.map triggerOf) = es.filterMap fun
      | .callback f op => some (.respond f (returnOf op.opReturn))
      | _ => none := by
  cases hop : r.opId with
  | none =>
    symm
    rw [Nnar.returns, Option.toList_none, List.flatMap_nil, List.filterMap_eq_nil_iff]
    intro e he
    cases e with
    | callback f op => simpa [hop] using h f op he
    | _ => rfl
  | some id =>
    rw [Nnar.returns, Option.toList_some, List.flatMap_singleton, List.filterMap_map]
    refine List.filterMap_congr fun e he => ?_
    cases e with
    | callback f op =>
      obtain rfl : id = f := Option.some.inj (hop.symm.trans (h f op he))
      rcases op with ⟨rid, _ | _⟩ <;> rfl
    | _ => rfl

theorem Concluded.ends {reg : Option (AtomicRegisterState Uuid)} (h : Concluded r effs reg es) :
    Nnar.Ends (instanceOf r) (effs.map triggerOf) (reg.map instanceOf) (es.map triggerOf) := by
  rcases h with ⟨rfl, rfl⟩ | ⟨rfl, hpre⟩
  · exact Or.inl ⟨rfl, rfl⟩
  · exact Or.inr ⟨rfl, hpre.map triggerOf⟩

/-- A client's command is a call. -/
theorem clientCommand_reacts (cmd : ClientRegisterCommand) :
    Nnar.Reacts (processes p) UInt8.toNat i (instanceOf r) (Nnar.upon id (callOf cmd.content))
      (instanceOf (clientCommand r cmd id id).1) ((clientCommand r cmd id id).2.map triggerOf) := by
  cases hc : cmd.content with
  | read =>
    simp only [clientCommand, hc]
    exact .read
  | write data =>
    simp only [clientCommand, hc]
    exact .write

theorem Invocation.follows {cmd : ClientRegisterCommand} (hr : SystemRun p P tr x.pre)
    (hi : Invocation p x i cmd id r) :
    Nnar.Step (processes p) UInt8.toNat SectorVec.zeros (stateOf x.pre) (historyAt x) (stateOf x.post) := by
  obtain ⟨reg, hconc, hm⟩ := hi.moved
  have hlive := (wellFormed hr).live i r hi.register
  have hidle := hlive.idle hi.idle
  have hown : ∀ m ∈ sent p x.out, m.cmd.header.processIdentifier = i := by
    intro m hm
    obtain ⟨t, -, rfl⟩ := mem_sent_broadcast.mp (sent_mono hi.effects hm)
    exact hlive.self
  have hidx : ∀ idx s, .write idx s ∈ x.out → idx = p.sectorIdx := by
    intro idx s hmem
    simpa using hi.effects.subset hmem
  have hseen : historyAt x = [.invoke id (callOf cmd.content)] := by
    obtain ⟨cut, hev⟩ := hi.event
    have hnone : responsesOf x = [] := by
      rw [responsesOf, List.filterMap_eq_nil_iff]
      intro e he
      obtain rfl := List.mem_singleton.mp (hi.effects.subset he)
      rfl
    simp [historyAt, hnone, invocationOf, hev]
  have hids : {u | u ∈ x.post.opIds} = insert id (stateOf x.pre).ids := by
    ext u
    simp [hi.opIds, stateOf]
  rw [hm.stateOf hown hidx, hids, hseen]
  exact .client (mem_processes.mpr hi.process) (by simp [stateOf, hi.register]) hidle.1 hidle.2.1 hi.fresh
    (clientCommand_reacts cmd) hconc.ends

/-- The register of a process in a run. -/
theorem regular (hr : SystemRun p P tr w) (hreg : (w.process i).register = some r) : Regular p i r := by
  have hlive := (wellFormed hr).live i r hreg
  refine ⟨hlive.self, hlive.count, fun k hk => ?_, fun hwork => ?_⟩
  · obtain ⟨e, he⟩ := HashMap.mem_dom.mp hk
    obtain ⟨id, -, m, hm, rfl, -⟩ := (evidence hr).readlist i r k e hreg he
    exact (evidence hr).sender m hm
  · obtain ⟨id, cmd, -, -, hcb, -⟩ := hlive.working hwork
    simp [hcb]

theorem Delivery.follows {cmd : SystemRegisterCommand} (hr : SystemRun p P tr x.pre)
    (hP : HighestIsLatest p x.pre x.event) (hd : Delivery p x i cmd r r' effs) :
    Nnar.Step (processes p) UInt8.toNat SectorVec.zeros (stateOf x.pre) (historyAt x) (stateOf x.post) := by
  obtain ⟨reg, hconc, hm⟩ := hd.moved
  have hlive := (wellFormed hr).live i r hd.register
  have hown : ∀ m ∈ sent p x.out, m.cmd.header.processIdentifier = i := by
    intro m hm
    rw [(hd.handled.sends (sent_mono hd.effects hm)).1]
    exact hlive.self
  have hidx : ∀ idx s, .write idx s ∈ x.out → idx = p.sectorIdx := fun idx s hmem =>
    (hd.handled.stores (hd.effects.subset hmem)).1.trans hlive.sectorIdx
  have hcalls : ∀ f op, .callback f op ∈ x.out → r.opId = some f := by
    intro f op hmem
    obtain ⟨-, -, -, -, hcb, hkind⟩ := hd.handled.calls (hd.effects.subset hmem)
    obtain ⟨id, c, -, hop, hcb', -⟩ := hlive.working (by rcases hkind with ⟨h, -⟩ | ⟨-, h, -⟩ <;> simp [h])
    rw [hop, ← hcb', hcb]
  have hseen : historyAt x = Nnar.returns (instanceOf r).opId (x.out.map triggerOf) := by
    obtain ⟨order, cut, hev⟩ := hd.event
    have hnone : invocationOf x = none := by simp [invocationOf, hev]
    rw [historyAt, hnone]
    exact (returns_eq hcalls).symm
  have hids : {u | u ∈ x.post.opIds} = (stateOf x.pre).ids := by rw [hd.opIds]; rfl
  rw [hm.stateOf hown hidx, hids, hseen]
  refine .deliver ⟨_, hd.delivered, rfl⟩ (by simp [stateOf, hd.register])
    (hd.handled.reacts (regular hr hd.register) ((evidence hr).sender _ hd.delivered) fun v e hc hcomp hhigh => ?_)
    hconc.ends
  obtain ⟨order, cut, hev⟩ := hd.event
  rw [hev] at hP
  obtain ⟨⟨k, hk⟩, hmax⟩ := hhigh
  refine hP r hd.register v (by rw [hc]; rfl) hcomp ⟨k, e⟩ (AList.mem_lookup_iff.mp hk) fun e' he' => ?_
  exact hmax e'.1 e'.2 (AList.mem_lookup_iff.mpr he')

/-- Every step of the registers is a step of the algorithm. -/
theorem step_follows (hr : SystemRun p P tr x.pre) (hP : HighestIsLatest p x.pre x.event)
    (hs : step p x.pre x.event = some (x.post, x.out)) :
    Nnar.Step (processes p) UInt8.toNat SectorVec.zeros (stateOf x.pre) (historyAt x) (stateOf x.post) := by
  cases step_happens hs with
  | client hi => exact hi.follows hr
  | system hd => exact hd.follows hr hP
  | @down i r hreg hm hids hnone =>
    have hseen : historyAt x = [] := by simp [historyAt, hnone, responsesOf, hm.out]
    rw [hm.stateOf (by simp [sent]) (by simp), hids, hseen]
    exact .crash (s := instanceOf r) (by simp [stateOf, hreg])
  | @up i hi hreg hm hids hnone =>
    have hseen : historyAt x = [] := by simp [historyAt, hnone, responsesOf, hm.out]
    rw [hm.stateOf (by simp [sent]) (by simp), hids, hseen]
    exact .recovery hi (by simp [stateOf, hreg])

theorem stateOf_init (p : Params) : stateOf (init p) = Nnar.init (processes p) 0 SectorVec.zeros := by
  ext1
  · funext i
    by_cases hi : i ∈ targets p.processesCount
    · simp [stateOf, init, Nnar.init, mem_processes, hi]
      rfl
    · simp [stateOf, init, Nnar.init, mem_processes, hi]
  · rfl
  · simp [stateOf, init, Nnar.init]
  · simp [stateOf, init, Nnar.init]

/-- The registers follow the algorithm: what clients see of them is what they see of the algorithm. -/
theorem run_follows (hr : SystemRun p (HighestIsLatest p) tr w) :
    Transitions (Nnar.Step (processes p) UInt8.toNat SectorVec.zeros) (Nnar.init (processes p) 0 SectorVec.zeros)
      (tr.map historyAt) (stateOf w) := by
  rw [← stateOf_init]
  exact hr.mapped fun _ x hrun hP hs => step_follows hrun hP hs

theorem history_eq_flatten (tr : Trace) : history tr = (tr.map historyAt).flatten := by
  rw [history, List.flatMap_def]
  rfl

end AtomicDisk.Register
