import AtomicDisk.Register.Handlers

/-! The maximum of the readlist (the VALUE handler of `atomic_register.rs`). What the algorithm needs is
    the entry with the largest `(timestamp, rank)`; what `max_by` compares is the rank alone, so an entry
    of a higher rank hides every later timestamp, and among entries of one rank the iteration order of the
    hash map decides.

        readlist              largest tag        max_by
        1: (2, 1, d₂)
        2: (2, 1, d₂)         (2, 1, d₂)         (1, 3, d₁)
        3: (1, 3, d₁)

    The two agree for every iteration order exactly on the readlists whose entries of highest rank also
    have the largest timestamp. -/

namespace AtomicDisk.Register
open Schemes

variable {κ : Type} {oc : Bool} {order : IterOrder UInt8 ReadEntry} {r : AtomicRegisterState κ}
  {h : SystemCommandHeader} {v e : ReadEntry} {m : HashMap UInt8 ReadEntry}

/-- The triple `(maxts, rr, readval)` that the handler takes from the readlist. -/
def selected (order : IterOrder UInt8 ReadEntry) (m : HashMap UInt8 ReadEntry) : Option ReadEntry :=
  (maxBy cmpEntries (order.iter m.entries)).map Sigma.snd

/-- What the handler does with it: write it back, or write the client's value one timestamp later. -/
def goOn (oc : Bool) (r : AtomicRegisterState κ) (h : SystemCommandHeader) (e : ReadEntry) :
    Option (AtomicRegisterState κ × List (Effect κ)) :=
  let r' := { r with readval := e.2.2, readlist := ∅, acklist := ∅, writePhase := true }
  if r.reading then some (r', [.broadcast ⟨replyHeader r h, .writeProc e.1 e.2.1 e.2.2⟩])
  else (addU64 oc e.1 1).map fun ts =>
    ({ r' with ts, wr := r.selfIdent, val := r.writeval },
      [.write r.sectorIdx (r.writeval, ts, r.selfIdent),
        .broadcast ⟨replyHeader r h, .writeProc ts r.selfIdent r.writeval⟩])

theorem goOn_read (hread : r.reading = true) :
    goOn oc r h e = some ({ r with readval := e.2.2, readlist := ∅, acklist := ∅, writePhase := true },
      [.broadcast ⟨replyHeader r h, .writeProc e.1 e.2.1 e.2.2⟩]) := by
  simp [goOn, hread]

theorem goOn_write {ts : UInt64} (hread : r.reading = false) (hadd : addU64 oc e.1 1 = some ts) :
    goOn oc r h e = some ({ r with readval := e.2.2, readlist := ∅, acklist := ∅, writePhase := true,
                                   ts, wr := r.selfIdent, val := r.writeval },
      [.write r.sectorIdx (r.writeval, ts, r.selfIdent),
        .broadcast ⟨replyHeader r h, .writeProc ts r.selfIdent r.writeval⟩]) := by
  simp [goOn, hread, hadd]

/-- The VALUE handler, at a quorum: select, then go on. -/
theorem systemCommand_selected (hop : r.opId = some h.msgIdent) (hphase : r.writePhase = false)
    (hquorum : Majority r (collected r h.processIdentifier v).len)
    (hworking : (r.reading || r.writing) = true) :
    systemCommand oc order r ⟨h, .value v.1 v.2.1 v.2.2⟩ =
      (selected order (consulted r h.processIdentifier v)).bind (goOn oc r h) := by
  obtain ⟨t, w, d⟩ := v
  have hlen : HashMap.len (r.readlist.insert h.processIdentifier (t, w, d)) >
      r.processesCount.toNat / 2 := hquorum
  simp only [systemCommand, onValue, hop, hphase, hlen, hworking, and_self, if_true,
    Option.bind_eq_bind, Option.bind_some, startWritePhase, selected]
  change (maxBy cmpEntries (order.iter (consulted r h.processIdentifier (t, w, d)).entries)).bind _ = _
  cases maxBy cmpEntries (order.iter (consulted r h.processIdentifier (t, w, d)).entries) with
  | none => rfl
  | some x =>
    simp only [Option.bind_some, Option.map_some, goOn, hop]
    split
    · rfl
    · cases addU64 oc x.2.1 1 <;> rfl

/-- An entry is selected, and it is one of highest rank. -/
theorem selected_highest (hm : m.entries ≠ []) (order : IterOrder UInt8 ReadEntry) :
    ∃ e, selected order m = some e ∧ Highest m e := by
  have hne : order.iter m.entries ≠ [] := fun h => hm (List.perm_nil.mp (h ▸ (order.perm m.entries)).symm)
  obtain ⟨x, hx⟩ : ∃ x, maxBy cmpEntries (order.iter m.entries) = some x := maxBy_isSome hne
  exact ⟨x.2, by rw [selected, hx]; rfl, highest_of_maxBy hx⟩

/-- Every entry of highest rank is selected in some iteration order. -/
theorem selected_of_highest (he : Highest m e) : ∃ order, selected order m = some e := by
  obtain ⟨⟨k, hk⟩, hmax⟩ := he
  have hmem : (⟨k, e⟩ : Σ _ : UInt8, ReadEntry) ∈ m.entries := AList.mem_lookup_iff.mp hk
  refine ⟨.lastly ⟨k, e⟩, ?_⟩
  have hlast := maxBy_concat cmpEntries_gt (l := m.entries.erase ⟨k, e⟩) (a := ⟨k, e⟩) fun b hb => ?_
  · rw [selected, IterOrder.lastly]
    simp only [hmem, if_true, hlast, Option.map_some]
  · have hb := List.mem_of_mem_erase hb
    exact UInt8.le_iff_toNat_le.mp (hmax b.1 b.2 (AList.mem_lookup_iff.mpr hb))

/-! ### The lexicographic maximum -/

/-- An entry whose `(timestamp, rank)` is at least that of every entry. -/
def LexMaximal (m : HashMap UInt8 ReadEntry) (e : ReadEntry) : Prop :=
  (∃ k, m.lookup k = some e) ∧ ∀ k e', m.lookup k = some e' → entryTag e' ≤ entryTag e

/-- Entries with the same tag have the same data. -/
def DataByTag (m : HashMap UInt8 ReadEntry) : Prop :=
  ∀ k k' e e', m.lookup k = some e → m.lookup k' = some e' → entryTag e = entryTag e' → e.2.2 = e'.2.2

/-- What the VALUE `v` with header `h`, which completes a quorum, should make register `r` do. -/
structure QuorumMaximum (oc : Bool) (r : AtomicRegisterState κ) (h : SystemCommandHeader) (v : ReadEntry) :
    Prop where
  /-- an entry of the largest tag is selected, and the handler goes on with it -/
  maximal : ∀ order, ∃ e, selected order (consulted r h.processIdentifier v) = some e ∧
    systemCommand oc order r ⟨h, .value v.1 v.2.1 v.2.2⟩ = goOn oc r h e ∧
    LexMaximal (consulted r h.processIdentifier v) e
  /-- the iteration order does not matter -/
  orderFree : DataByTag (consulted r h.processIdentifier v) → ∀ order order',
    selected order (consulted r h.processIdentifier v) = selected order' (consulted r h.processIdentifier v)
  /-- a write takes the next timestamp and the own rank, above every entry -/
  above : r.reading = false → ∀ order, ∃ e r' effs,
    selected order (consulted r h.processIdentifier v) = some e ∧
    systemCommand oc order r ⟨h, .value v.1 v.2.1 v.2.2⟩ = some (r', effs) ∧
    r'.ts.toNat = e.1.toNat + 1 ∧ r'.wr = r.selfIdent ∧ r'.val = r.writeval ∧
    ∀ k e', (consulted r h.processIdentifier v).lookup k = some e' → entryTag e' < tag r'.ts r'.wr

/-- The entries of highest rank have the largest timestamp. -/
def RankFollowsTime (m : HashMap UInt8 ReadEntry) : Prop :=
  ∀ e, Highest m e → ∀ k e', m.lookup k = some e' → e'.1 ≤ e.1

/-- What is said of all entries, said of the list of them. -/
theorem forall_lookup {Q : ReadEntry → Prop} :
    (∀ k e, m.lookup k = some e → Q e) ↔ ∀ x ∈ m.entries, Q x.2 :=
  ⟨fun h x hx => h x.1 x.2 (AList.mem_lookup_iff.mpr hx),
    fun h k e he => h ⟨k, e⟩ (AList.mem_lookup_iff.mp he)⟩

theorem rankFollowsTime_iff : RankFollowsTime m ↔ ∀ x ∈ m.entries,
    (∀ y ∈ m.entries, y.2.2.1 ≤ x.2.2.1) → ∀ y ∈ m.entries, y.2.1 ≤ x.2.1 := by
  constructor
  · intro h x hx hmax
    exact forall_lookup.mp (h x.2 ⟨⟨x.1, AList.mem_lookup_iff.mpr hx⟩, forall_lookup.mpr hmax⟩)
  · rintro h e ⟨⟨k, hk⟩, hmax⟩
    exact forall_lookup.mpr (h ⟨k, e⟩ (AList.mem_lookup_iff.mp hk) (forall_lookup.mp hmax))

theorem entryTag_le {e e' : ReadEntry} (ht : e'.1 ≤ e.1) (hr : e'.2.1 ≤ e.2.1) : entryTag e' ≤ entryTag e := by
  obtain ⟨t, w, d⟩ := e
  obtain ⟨t', w', d'⟩ := e'
  rw [entryTag_mk, entryTag_mk, tag_le]
  rintro (hlt | ⟨-, hlt⟩)
  · exact UInt64.not_le.mpr hlt ht
  · exact UInt8.not_le.mpr hlt hr

theorem timestamp_le {e e' : ReadEntry} (h : entryTag e' ≤ entryTag e) : e'.1 ≤ e.1 := by
  obtain ⟨t, w, d⟩ := e
  obtain ⟨t', w', d'⟩ := e'
  rw [entryTag_mk, entryTag_mk, tag_le, not_or] at h
  exact UInt64.not_lt.mp h.1

/-- Where ranks follow timestamps, the entries of highest rank are those of the largest tag. -/
theorem RankFollowsTime.lexMaximal (hm : RankFollowsTime m) (he : Highest m e) : LexMaximal m e :=
  ⟨he.1, fun k e' he' => entryTag_le (hm e he k e' he') (he.2 k e' he')⟩

theorem LexMaximal.unique (hd : DataByTag m) {e' : ReadEntry} (he : LexMaximal m e)
    (he' : LexMaximal m e') : e = e' := by
  obtain ⟨⟨k, hk⟩, hmax⟩ := he
  obtain ⟨⟨k', hk'⟩, hmax'⟩ := he'
  have htag : entryTag e = entryTag e' := le_antisymm (hmax' k e hk) (hmax k' e' hk')
  have hdata := hd k k' e e' hk hk' htag
  obtain ⟨t, w, d⟩ := e
  obtain ⟨t', w', d'⟩ := e'
  obtain ⟨rfl, rfl⟩ := tag_inj.mp htag
  obtain rfl : d = d' := hdata
  rfl

/-- The register's own entry is always there. -/
theorem consulted_entries (r : AtomicRegisterState κ) (q : UInt8) (v : ReadEntry) :
    (consulted r q v).entries ≠ [] := by
  intro hnil
  have hown : (consulted r q v).lookup r.selfIdent = some (r.ts, r.wr, r.val) := AList.lookup_insert ..
  have hmem := AList.mem_lookup_iff.mp hown
  rw [hnil] at hmem
  simp at hmem

/-- CORRECT (the quorum maximum is the lexicographic one exactly where ranks follow timestamps): a VALUE
    that completes the first quorum of an operation makes the register select the entry of largest
    `(timestamp, rank)`, whatever the iteration order, and go on to a strictly larger tag for a write, if
    and only if every entry of highest rank has the largest timestamp, which for a write is not the last
    `u64`. -/
theorem quorumMaximum_iff (hop : r.opId = some h.msgIdent) (hphase : r.writePhase = false)
    (hquorum : Majority r (collected r h.processIdentifier v).len)
    (hworking : (r.reading || r.writing) = true) :
    QuorumMaximum oc r h v ↔ RankFollowsTime (consulted r h.processIdentifier v) ∧
      (r.reading = false → ∀ k e, (consulted r h.processIdentifier v).lookup k = some e →
        e.1.toNat + 1 < 2 ^ 64) := by
  constructor
  · intro hq
    refine ⟨fun e he k e' he' => ?_, fun hread k e' he' => ?_⟩
    · -- an iteration order in which this entry is the one selected
      obtain ⟨order, horder⟩ := selected_of_highest he
      obtain ⟨e₁, hsel, -, -, hmax⟩ := hq.maximal order
      obtain rfl : e = e₁ := Option.some.inj (horder.symm.trans hsel)
      exact timestamp_le (hmax k e' he')
    · obtain ⟨e, r', effs, hsel, -, hts, -⟩ := hq.above hread .asIs
      obtain ⟨e₁, hsel₁, -, -, hmax⟩ := hq.maximal .asIs
      obtain rfl : e = e₁ := Option.some.inj (hsel.symm.trans hsel₁)
      have hle := UInt64.le_iff_toNat_le.mp (timestamp_le (hmax k e' he'))
      have hbound := r'.ts.toNat_lt
      omega
  · rintro ⟨hranks, hfits⟩
    have hall : ∀ order, ∃ e, selected order (consulted r h.processIdentifier v) = some e ∧
        systemCommand oc order r ⟨h, .value v.1 v.2.1 v.2.2⟩ = goOn oc r h e ∧
        LexMaximal (consulted r h.processIdentifier v) e := by
      intro order
      obtain ⟨e, hsel, he⟩ := selected_highest (consulted_entries r h.processIdentifier v) order
      have hgo : systemCommand oc order r ⟨h, .value v.1 v.2.1 v.2.2⟩ = _ :=
        systemCommand_selected hop hphase hquorum hworking
      rw [hsel, Option.bind_some] at hgo
      exact ⟨e, hsel, hgo, hranks.lexMaximal he⟩
    refine ⟨hall, fun hd order order' => ?_, fun hread order => ?_⟩
    · obtain ⟨e, hsel, -, he⟩ := hall order
      obtain ⟨e', hsel', -, he'⟩ := hall order'
      rw [hsel, hsel', he.unique hd he']
    · obtain ⟨e, hsel, hgo, ⟨k, hk⟩, hmax⟩ := hall order
      obtain ⟨ts, hadd, hts⟩ := addU64_next oc (hfits hread k e hk)
      refine ⟨e, _, _, hsel, hgo.trans (goOn_write hread hadd), hts, rfl, rfl, fun k' e' he' => ?_⟩
      obtain ⟨t', w', d'⟩ := e'
      have hle : t'.toNat ≤ e.1.toNat := UInt64.le_iff_toNat_le.mp (timestamp_le (hmax k' _ he'))
      rw [entryTag_mk, tag_lt_toNat]
      exact Or.inl (by change t'.toNat < ts.toNat; omega)

/-- A register of three processes in the first phase, which has `(2, 1)` itself and from process 2. -/
def quorumRegister (reading : Bool) : AtomicRegisterState Unit where
  selfIdent := 1
  sectorIdx := 0
  processesCount := 3
  ts := 2
  wr := 1
  val := filled 2
  readlist := AList.insert 2 (2, 1, filled 2) ∅
  acklist := ∅
  reading
  writing := !reading
  writeval := filled 3
  readval := .zeros
  writePhase := false
  callback := some ()
  rid := some 0
  opId := some (uuid 7)

/-- The header of a VALUE from process 3. -/
def valueHeader : SystemCommandHeader := ⟨3, uuid 7, 0⟩

/-- Process 3 has never been written to: the write of this register takes the tag `(3, 1)`. -/
theorem quorumMaximum_oneWriter :
    QuorumMaximum true (quorumRegister false) valueHeader (0, 0, .zeros) := by
  refine (quorumMaximum_iff rfl rfl ?_ rfl).mpr ⟨rankFollowsTime_iff.mpr ?_, fun _ => ?_⟩
  · unfold Majority
    decide +kernel
  · decide +kernel
  · exact forall_lookup.mpr (by decide +kernel)

/-- Process 3 answers with an earlier value of a higher rank: that is what a read selects, and writes back. -/
theorem quorumMaximum_fails :
    (∃ r' : AtomicRegisterState Unit, systemCommand true .asIs (quorumRegister true)
      ⟨valueHeader, .value 1 3 (filled 1)⟩ =
        some (r', [.broadcast ⟨⟨1, uuid 7, 0⟩, .writeProc 1 3 (filled 1)⟩])) ∧
    (consulted (quorumRegister true) 3 (1, 3, filled 1)).lookup 1 = some (2, 1, filled 2) ∧
    tag 1 3 < tag 2 1 ∧ ¬ QuorumMaximum true (quorumRegister true) valueHeader (1, 3, filled 1) := by
  have hsel : selected .asIs (consulted (quorumRegister true) 3 (1, 3, filled 1)) =
      some (1, 3, filled 1) := rfl
  have hown : (consulted (quorumRegister true) 3 (1, 3, filled 1)).lookup 1 = some (2, 1, filled 2) :=
    AList.lookup_insert ..
  have hgo : systemCommand true .asIs (quorumRegister true) ⟨valueHeader, .value 1 3 (filled 1)⟩ =
      goOn true (quorumRegister true) valueHeader (1, 3, filled 1) := by
    refine (systemCommand_selected (v := (1, 3, filled 1)) rfl rfl ?_ rfl).trans ?_
    · unfold Majority
      decide +kernel
    · exact congrArg (fun o => o.bind (goOn true (quorumRegister true) valueHeader)) hsel
  refine ⟨⟨_, hgo.trans (goOn_read rfl)⟩, hown, tag_lt.mpr (by decide), fun hq => ?_⟩
  obtain ⟨e, hsel', -, -, hmax⟩ := hq.maximal .asIs
  obtain rfl := Option.some.inj (hsel.symm.trans hsel')
  exact absurd (timestamp_le (hmax 1 _ hown)) (by decide)

end AtomicDisk.Register
