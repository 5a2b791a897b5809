import AtomicDisk.Transfer.RoundTrip

/-! Malformed messages. What `deserialize_rc` is for, by the rules on incorrect messages: slide to the
    next magic number; if the message type behind it is valid, read the command; if it is not, discard the
    eight bytes and go on (`scanRc`).

        noise │ magic, invalid type │ noise │ magic, invalid type │ noise │ magic, valid type │ command
              └──── 8 discarded ────┘       └──── 8 discarded ────┘

    `deserialize_rc` itself unwraps the message type, so it does this only when the first header it comes
    to is a valid one. -/

namespace AtomicDisk.Transfer
open Schemes

/-- The bytes that are message types. -/
def ValidType (b : UInt8) : Prop := 1 ≤ b ∧ b ≤ 6

instance (b : UInt8) : Decidable (ValidType b) := inferInstanceAs (Decidable (_ ∧ _))

theorem validType_of_ok {b : UInt8} {t : MessageType} (ht : MessageType.tryFrom b = .ok t) :
    ValidType b := by
  unfold MessageType.tryFrom at ht
  split_ifs at ht with h₁ h₂ h₃ h₄ h₅ h₆
  all_goals
    subst b
    decide

theorem not_validType_of_error {b : UInt8} {e : SerializationError}
    (ht : MessageType.tryFrom b = .error e) : ¬ ValidType b := by
  unfold MessageType.tryFrom at ht
  split_ifs at ht with h₁ h₂ h₃ h₄ h₅ h₆
  rintro ⟨hge, hle⟩
  simp only [UInt8.le_iff_toNat_le, ← UInt8.toNat_inj, UInt8.reduceToNat] at *
  omega

/-- Reading a command as the rules on incorrect messages have it. -/
def scanRc (h : Hmac) (keys : Keys) (stream : List UInt8) :
    Except Fault ((RegisterCommand × Bool) × List UInt8) :=
  match hfirst : afterFirst magicNumber stream with
  | none => .error .unexpectedEof
  | some rest =>
    have : rest.length + 4 ≤ stream.length := afterFirst_length hfirst
    if hlen : 4 ≤ rest.length then
      let buff : Block UInt8 4 := ⟨rest.take 4, List.length_take_of_le hlen⟩
      match MessageType.tryFrom (buff.get 3) with
      | .ok msgType => constructCommand h keys buff msgType (rest.drop 4)
      | .error _ => scanRc h keys (rest.drop 4)
    else .error .unexpectedEof
  termination_by stream.length
  decreasing_by
    rw [List.length_drop]
    omega

/-- The first magic number of the stream, unless the stream ends before the type, has a valid type
    behind it. -/
def FirstHeaderValid (stream : List UInt8) : Prop :=
  ∀ rest, afterFirst magicNumber stream = some rest → ∀ b, rest[3]? = some b → ValidType b

variable {h : Hmac} {keys : Keys} {stream : List UInt8}

/-! ### Scanning -/

theorem scanRc_none (hfirst : afterFirst magicNumber stream = none) :
    scanRc h keys stream = .error .unexpectedEof := by
  rw [scanRc]
  split
  · rfl
  · simp_all

theorem scanRc_some {rest : List UInt8} {buff : Block UInt8 4}
    (hfirst : afterFirst magicNumber stream = some (buff.items ++ rest)) :
    scanRc h keys stream =
      match MessageType.tryFrom (buff.get 3) with
      | .ok msgType => constructCommand h keys buff msgType rest
      | .error _ => scanRc h keys rest := by
  have hsize := buff.size
  rw [scanRc]
  split
  · simp_all
  · rename_i rest' hrest'
    obtain rfl : buff.items ++ rest = rest' := Option.some.inj (hfirst.symm.trans hrest')
    rw [dif_pos (by rw [List.length_append, hsize]; omega)]
    have htake : (buff.items ++ rest).take 4 = buff.items := List.take_left' hsize
    have hdrop : (buff.items ++ rest).drop 4 = rest := List.drop_left' hsize
    simp only [htake, hdrop]

theorem scanRc_cut {rest : List UInt8} (hfirst : afterFirst magicNumber stream = some rest)
    (hlt : rest.length < 4) : scanRc h keys stream = .error .unexpectedEof := by
  rw [scanRc]
  split
  · rfl
  · rename_i rest' hrest'
    obtain rfl : rest = rest' := Option.some.inj (hfirst.symm.trans hrest')
    rw [dif_neg (by omega)]

/-- Behind a magic number there are four bytes, or the stream ends. -/
theorem header_cases (rest : List UInt8) :
    rest.length < 4 ∨ ∃ (buff : Block UInt8 4) (body : List UInt8), rest = buff.items ++ body := by
  rcases lt_or_ge rest.length 4 with hlt | hle
  · exact Or.inl hlt
  · exact Or.inr ⟨⟨rest.take 4, List.length_take_of_le hle⟩, rest.drop 4,
      (List.take_append_drop _ _).symm⟩

/-- A header with an invalid type, with the noise in front of it. -/
structure Bogus where
  noise : List UInt8
  buff : Block UInt8 4
  quiet : ¬ magicNumber <:+: noise
  bad : ¬ ValidType (buff.get 3)

def Bogus.bytes (b : Bogus) : List UInt8 := b.noise ++ (magicNumber ++ b.buff.items)

theorem afterFirst_bogus (b : Bogus) (rest : List UInt8) :
    afterFirst magicNumber (b.bytes ++ rest) = some (b.buff.items ++ rest) := by
  simp only [Bogus.bytes, List.append_assoc]
  exact afterFirst_noise _ (by decide) b.quiet

theorem tryFrom_bogus (b : Bogus) : MessageType.tryFrom (b.buff.get 3) = .error .invalidMessageType := by
  cases ht : MessageType.tryFrom (b.buff.get 3) with
  | ok t => exact absurd (validType_of_ok ht) b.bad
  | error e =>
    unfold MessageType.tryFrom at ht
    split_ifs at ht
    exact ht.symm

/-- Headers with an invalid type are discarded, however many. -/
theorem scanRc_bogus (bs : List Bogus) (rest : List UInt8) :
    scanRc h keys (bs.flatMap Bogus.bytes ++ rest) = scanRc h keys rest := by
  induction bs with
  | nil => rfl
  | cons b bs ih =>
    rw [List.flatMap_cons, List.append_assoc, scanRc_some (afterFirst_bogus b _), tryFrom_bogus]
    exact ih

/-- The command behind them is read. -/
theorem scanRc_serializeRc (bs : List Bogus) (noise rest : List UInt8) (cmd : RegisterCommand)
    (hnoise : ¬ magicNumber <:+: noise) (hsized : Sized cmd) :
    scanRc h keys (bs.flatMap Bogus.bytes ++ (noise ++ (serializeRc h cmd (keyFor keys cmd) ++ rest))) =
      .ok ((cmd, true), rest) := by
  rw [scanRc_bogus, scanRc_some (afterFirst_serializeRc noise rest cmd hnoise), tryFrom_headerOf]
  exact constructCommand_fields cmd hsized rest

/-! ### Failures -/

/-- The length of what follows the header: the fields and the tag. -/
def bodySize : MessageType → ℕ
  | .read => 16 + 32
  | .write => 16 + 4096 + 32
  | .readProc | .ack => 24 + 32
  | .value | .writeProc => 40 + 4096 + 32

/-- What is read behind a valid header, field by field. -/
theorem constructCommand_reads (h : Hmac) (keys : Keys) (buff : Block UInt8 4) (t : MessageType) :
    Reader.Reads .unexpectedEof (bodySize t) (constructCommand h keys buff t) := by
  cases t with
  | read =>
    refine .bind (.readExact 8) (m := 40) fun _ => .bind (.readExact 8) (m := 32) fun _ => ?_
    exact .bind (n := 0) (.pure _) fun _ => .bind (.readExact 32) (m := 0) fun _ => .pure _
  | write =>
    refine .bind (.readExact 8) (m := 4136) fun _ => .bind (.readExact 8) (m := 4128) fun _ => ?_
    refine .bind (.readExact 4096) (m := 32) fun _ => .bind (n := 0) (m := 32) (.pure _) fun _ => ?_
    exact .bind (.readExact 32) (m := 0) fun _ => .pure _
  | readProc | ack =>
    refine .bind (.readExact 16) (m := 40) fun _ => .bind (.readExact 8) (m := 32) fun _ => ?_
    exact .bind (.readExact 32) (m := 0) fun _ => .bind (n := 0) (.pure _) fun _ => .pure _
  | value | writeProc =>
    refine .bind (.readExact 16) (m := 4152) fun _ => .bind (.readExact 8) (m := 4144) fun _ => ?_
    refine .bind (.readExact 8) (m := 4136) fun _ => .bind (.readExact 8) (m := 4128) fun _ => ?_
    refine .bind (.readExact 4096) (m := 32) fun _ => .bind (.readExact 32) (m := 0) fun _ => ?_
    exact .bind (n := 0) (.pure _) fun _ => .pure _

/-- By the rules, reading fails only because the stream ends. -/
theorem scanRc_error {fault : Fault} (herr : scanRc h keys stream = .error fault) :
    fault = .unexpectedEof := by
  induction hn : stream.length using Nat.strong_induction_on generalizing stream with
  | _ n ih =>
    cases hfirst : afterFirst magicNumber stream with
    | none =>
      rw [scanRc_none hfirst] at herr
      exact (Except.error.inj herr).symm
    | some rest =>
      rcases header_cases rest with hlt | ⟨buff, body, rfl⟩
      · rw [scanRc_cut hfirst hlt] at herr
        exact (Except.error.inj herr).symm
      · rw [scanRc_some hfirst] at herr
        cases ht : MessageType.tryFrom (buff.get 3) with
        | ok t =>
          rw [ht] at herr
          exact (constructCommand_reads h keys buff t).takes.failsOnly body fault herr
        | error e =>
          rw [ht] at herr
          have hlt := afterFirst_length hfirst
          have hsize := buff.size
          rw [List.length_append] at hlt
          exact ih body.length (by omega) herr rfl

/-! ### deserialize_rc -/

theorem firstHeaderValid_iff {buff : Block UInt8 4} {rest : List UInt8}
    (hfirst : afterFirst magicNumber stream = some (buff.items ++ rest)) :
    FirstHeaderValid stream ↔ ValidType (buff.get 3) := by
  have hget : (buff.items ++ rest)[3]? = some (buff.get 3) := by
    have hsize := buff.size
    rw [List.getElem?_append_left (by omega), List.getElem?_eq_getElem (by omega)]
    rfl
  constructor
  · intro hvalid
    exact hvalid _ hfirst _ hget
  · rintro hvalid rest' hrest' b hb
    obtain rfl : buff.items ++ rest = rest' := Option.some.inj (hfirst.symm.trans hrest')
    obtain rfl : buff.get 3 = b := Option.some.inj (hget.symm.trans hb)
    exact hvalid

/-- CORRECT (exactly when): `deserialize_rc` follows the rules on incorrect messages if and only if the
    first magic number of the stream has a valid message type behind it, or the stream ends before. -/
theorem deserializeRc_eq_scanRc_iff (h : Hmac) (keys : Keys) (stream : List UInt8) :
    deserializeRc h keys stream = scanRc h keys stream ↔ FirstHeaderValid stream := by
  rw [deserializeRc_eq]
  cases hfirst : afterFirst magicNumber stream with
  | none => simp [scanRc_none hfirst, FirstHeaderValid, hfirst]
  | some rest =>
    rcases header_cases rest with hlt | ⟨buff, body, rfl⟩
    · have hcut : (readExact 4 : CommandReader _) rest = .error .unexpectedEof :=
        Reader.readExact_short hlt
      simp only [Reader.bind_error hcut, scanRc_cut hfirst hlt, true_iff]
      intro rest' hrest' b hb
      obtain rfl : rest = rest' := Option.some.inj (hfirst.symm.trans hrest')
      rw [List.getElem?_eq_none (by omega)] at hb
      simp at hb
    · rw [firstHeaderValid_iff hfirst, scanRc_some hfirst]
      simp only
      rw [Reader.bind_ok (readExact_front _ _ buff.size)]
      cases ht : MessageType.tryFrom (buff.get 3) with
      | ok t => simp [validType_of_ok ht]
      | error e =>
        simp only [not_validType_of_error ht, iff_false]
        -- the unwrap panics, and the rules never do
        intro heq
        have := scanRc_error heq.symm
        simp at this

/-- A client that sends a header of type 9, and then a command. -/
def bogusHeader : Bogus := ⟨[], ⟨[0, 0, 0, 9], rfl⟩, by decide, by decide⟩

def readCommand : RegisterCommand := .client ⟨⟨7, 0⟩, .read⟩

/-- The header makes `deserialize_rc` panic; by the rules it is discarded, and the command is read. -/
theorem bogusHeader_panics :
    deserializeRc sumHmac ⟨[], []⟩ (bogusHeader.bytes ++ serializeRc sumHmac readCommand []) =
      .error .panic ∧
    scanRc sumHmac ⟨[], []⟩ (bogusHeader.bytes ++ serializeRc sumHmac readCommand []) =
      .ok ((readCommand, true), []) := by
  refine ⟨by decide +kernel, ?_⟩
  have hread : scanRc sumHmac ⟨[], []⟩ ([bogusHeader].flatMap Bogus.bytes ++ ([] ++
      (serializeRc sumHmac readCommand [] ++ []))) = .ok ((readCommand, true), []) :=
    scanRc_serializeRc [bogusHeader] [] [] readCommand (by decide) trivial
  simpa using hread

end AtomicDisk.Transfer
