import AtomicDisk.Register.Durability
import AtomicDisk.Register.Panics

/-! Duplicate delivery. The register client sends a message of the process to itself twice, and others again
    and again. A handler that has let a message through moves the register out of the reach of its copy:

        VALUE       collected   ──▶ the same entry is put in again
                    quorum      ──▶ the write phase has begun, where VALUE is ignored
        WRITE_PROC  adopted     ──▶ the tag is not larger any more, so it is only acknowledged
        ACK         collected   ──▶ the same process is put in again
                    quorum      ──▶ the write phase is over, and ACK is ignored -/

namespace AtomicDisk.Register
open Schemes

variable {κ : Type} {oc : Bool} {r r' : AtomicRegisterState κ} {h : SystemCommandHeader} {id : Uuid}
  {c : SystemRegisterCommandContent} {effs : List (Effect κ)}

/-! ### Messages that are let through no more -/

theorem onValue_stale (order : IterOrder UInt8 ReadEntry) (e : ReadEntry) (hop : r.opId = some id)
    (hstale : h.msgIdent ≠ id ∨ r.writePhase = true) : onValue oc order r h e = some (r, []) := by
  have hguard : ¬ (h.msgIdent = id ∧ r.writePhase = false) := by
    rintro ⟨heq, hphase⟩
    rcases hstale with hne | hon
    · exact hne heq
    · simp [hphase] at hon
  simp only [onValue, hop, Option.bind_eq_bind, Option.bind_some, if_neg hguard]

theorem onAck_stale (hop : r.opId = some id) (hstale : h.msgIdent ≠ id ∨ r.writePhase = false) :
    onAck r h = some (r, []) := by
  have hguard : ¬ (h.msgIdent = id ∧ r.writePhase = true) := by
    rintro ⟨heq, hphase⟩
    rcases hstale with hne | hoff
    · exact hne heq
    · simp [hphase] at hoff
  simp only [onAck, hop, Option.bind_eq_bind, Option.bind_some, if_neg hguard]

/-- A VALUE that does not complete the quorum, collected already. -/
theorem onValue_collected (order : IterOrder UInt8 ReadEntry) (e : ReadEntry) (hop : r.opId = some h.msgIdent)
    (hphase : r.writePhase = false)
    (hquorum : ¬ (Majority r (collected r h.processIdentifier e).len ∧ (r.reading || r.writing) = true)) :
    onValue oc order { r with readlist := collected r h.processIdentifier e } h e =
      some ({ r with readlist := collected r h.processIdentifier e }, []) := by
  have hagain : (collected r h.processIdentifier e).insert h.processIdentifier e =
      collected r h.processIdentifier e := AList.insert_insert ..
  simp only [onValue, hop, Option.bind_eq_bind, Option.bind_some, hagain]
  rw [if_pos ⟨trivial, hphase⟩]
  exact if_neg hquorum

/-- An ACK that does not complete the quorum, collected already. -/
theorem onAck_collected (hop : r.opId = some h.msgIdent) (hphase : r.writePhase = true)
    (hquorum : ¬ (Majority r (insert h.processIdentifier r.acklist).card ∧
      (r.reading || r.writing) = true)) :
    onAck { r with acklist := insert h.processIdentifier r.acklist } h =
      some ({ r with acklist := insert h.processIdentifier r.acklist }, []) := by
  simp only [onAck, hop, Option.bind_eq_bind, Option.bind_some, Finset.insert_idem]
  rw [if_pos ⟨trivial, hphase⟩]
  exact if_neg hquorum

/-- A WRITE_PROC with a tag that is not larger. -/
theorem onWriteProc_keep {t : UInt64} {w : UInt8} (d : SectorVec) (hle : tag t w ≤ tag r.ts r.wr) :
    onWriteProc r h t w d =
      some (r, [.send ⟨⟨replyHeader r h, .ack⟩, h.processIdentifier⟩]) := by
  rw [onWriteProc, if_neg (tag_le.mp hle)]
  rfl

/-! ### The second delivery -/

/-- A command that has been handled leaves the register as it is, and does nothing but send. -/
theorem Handled.again (hh : Handled oc r h c r' effs) (order : IterOrder UInt8 ReadEntry) :
    ∃ effs', systemCommand oc order r' ⟨h, c⟩ = some (r', effs') ∧ ∀ e ∈ effs', ∃ msg, e = .send msg := by
  cases hh with
  | readProc => exact ⟨_, rfl, by simp⟩
  | valueStale hid hstale => exact ⟨[], onValue_stale order _ hid hstale, by simp⟩
  | valueCollect hid hphase hquorum => exact ⟨[], onValue_collected order _ hid hphase hquorum, by simp⟩
  | valueRead hid => exact ⟨[], onValue_stale order _ hid (Or.inr rfl), by simp⟩
  | valueWrite hid => exact ⟨[], onValue_stale order _ hid (Or.inr rfl), by simp⟩
  | writeProcAdopt => exact ⟨_, onWriteProc_keep _ (le_refl _), by simp⟩
  | writeProcKeep hle => exact ⟨_, onWriteProc_keep _ hle, by simp⟩
  | ackStale hid hstale => exact ⟨[], onAck_stale hid hstale, by simp⟩
  | ackCollect hid hphase hquorum => exact ⟨[], onAck_collected hid hphase hquorum, by simp⟩
  | ackRead hid | ackWrite hid | ackReadUnheard hid | ackWriteUnheard hid =>
    exact ⟨[], onAck_stale hid (Or.inr rfl), by simp⟩

/-- One call of `system_command`, on the register and what the sectors manager holds. -/
def handOver (oc : Bool) (order : IterOrder UInt8 ReadEntry) (m : SystemRegisterCommand)
    (s : AtomicRegisterState κ × (SectorIdx → SectorVec × UInt64 × UInt8)) :
    Option ((AtomicRegisterState κ × (SectorIdx → SectorVec × UInt64 × UInt8)) × List (Effect κ)) :=
  (systemCommand oc order s.1 m).map fun x => ((x.1, x.2.foldl Single.store s.2), x.2)

/-- Sending stores nothing. -/
theorem foldl_store_sends {durable : SectorIdx → SectorVec × UInt64 × UInt8}
    (hsends : ∀ e ∈ effs, ∃ msg, e = .send msg) : effs.foldl Single.store durable = durable := by
  induction effs with
  | nil => rfl
  | cons e effs ih =>
    obtain ⟨msg, rfl⟩ := hsends e (List.mem_cons_self ..)
    exact ih fun e he => hsends e (List.mem_cons_of_mem _ he)

/-- CORRECT (duplicate delivery): once an operation has been started, to deliver any command twice in a row
    leaves register and storage as delivering it once does, and the second delivery invokes no callback,
    stores nothing and broadcasts nothing. No delivery panics as long as timestamps can be incremented. -/
theorem duplicate_harmless {last : Option Uuid} (hr : Incarnation oc r last) (hstarted : r.opId.isSome)
    (durable : SectorIdx → SectorVec × UInt64 × UInt8) (m : SystemRegisterCommand)
    (order order' : IterOrder UInt8 ReadEntry) :
    ((handOver oc order m (r, durable)).bind fun x => (handOver oc order' m x.1).map Prod.fst) =
        (handOver oc order m (r, durable)).map Prod.fst ∧
      (∀ x y, handOver oc order m (r, durable) = some x → handOver oc order' m x.1 = some y →
        (∀ f op, .callback f op ∉ y.2) ∧ (∀ idx sector, .write idx sector ∉ y.2) ∧
          ∀ cmd, .broadcast cmd ∉ y.2) ∧
      (TimestampsFit r m → (handOver oc order m (r, durable)).isSome) := by
  obtain ⟨id, hop⟩ := Option.isSome_iff_exists.mp hstarted
  have htotal : TimestampsFit r m → ∃ r' effs, systemCommand oc order r m = some (r', effs) :=
    systemCommand_total hop (hr.ids.2 hstarted)
  cases hs : systemCommand oc order r m with
  | none =>
    refine ⟨by simp [handOver, hs], by simp [handOver, hs], fun hfit => ?_⟩
    obtain ⟨r', effs, hs'⟩ := htotal hfit
    rw [hs] at hs'
    cases hs'
  | some x =>
    obtain ⟨r', effs⟩ := x
    obtain ⟨effs', hagain, hsends⟩ := (systemCommand_handled hs).again order'
    have hsecond : systemCommand oc order' r' m = some (r', effs') := hagain
    refine ⟨?_, ?_, fun _ => by simp [handOver, hs]⟩
    · simp [handOver, hs, hsecond, foldl_store_sends hsends]
    · intro x y hx hy
      obtain rfl : ((r', effs.foldl Single.store durable), effs) = x := by simpa [handOver, hs] using hx
      obtain rfl : ((r', effs'.foldl Single.store (effs.foldl Single.store durable)), effs') = y := by
        simpa [handOver, hsecond] using hy
      refine ⟨fun f op hmem => ?_, fun idx sector hmem => ?_, fun cmd hmem => ?_⟩
      all_goals
        obtain ⟨msg, heq⟩ := hsends _ hmem
        cases heq

section run

-- the sectors have 4096 bytes
set_option maxRecDepth 40000

/-- The VALUE of the process itself, which completes the first quorum of a read. -/
theorem ownValue_twice : ∃ x y,
    handOver true .asIs ⟨⟨1, uuid 1, 0⟩, .value 0 0 .zeros⟩ (readingRegister, fun _ => (.zeros, 0, 0)) = some x ∧
      handOver true .asIs ⟨⟨1, uuid 1, 0⟩, .value 0 0 .zeros⟩ x.1 = some y ∧ y.1 = x.1 ∧
      ∀ cmd, .broadcast cmd ∉ y.2 := by
  have hreading : Incarnation true readingRegister (some (uuid 1)) := .client _ _ _ (.build 1 0 1 _)
  obtain ⟨hsame, hquiet, -⟩ := duplicate_harmless hreading rfl (fun _ => (.zeros, 0, 0))
    ⟨⟨1, uuid 1, 0⟩, .value 0 0 .zeros⟩ .asIs .asIs
  have hfirst : (handOver true .asIs ⟨⟨1, uuid 1, 0⟩, .value 0 0 .zeros⟩
      (readingRegister, fun _ => (.zeros, 0, 0))).isSome = true := by decide +kernel
  obtain ⟨x, hx⟩ := Option.isSome_iff_exists.mp hfirst
  rw [hx, Option.bind_some, Option.map_some] at hsame
  obtain ⟨y, hy, hyx⟩ := Option.map_eq_some_iff.mp hsame
  exact ⟨x, y, hx, hy, hyx, (hquiet x y hx hy).2.2⟩

end run

end AtomicDisk.Register
