import AtomicDisk.Transfer.TransferOperations

/-! What is serialized is deserialized again. Behind the magic number the fields of a command are read
    back one by one, and the mac is then that of all bytes before the tag. Noise between commands is
    skipped, since no end of the magic number is a beginning of it:

        noise₁ │ cmd₁ │ noise₂ │ cmd₂ │ …   ──deserialize_rc──▶   (cmd₁, true), (cmd₂, true), … -/

namespace AtomicDisk.Transfer
open Schemes

variable {h : Hmac} {keys : Keys} {n : ℕ}

/-! ### Fields -/

theorem readExact_front (l rest : List UInt8) (hl : l.length = n) :
    readExact n (l ++ rest) = .ok (⟨l, hl⟩, rest) := Reader.readExact_append l rest hl

@[simp] theorem toBeBytes_length (x : UInt64) : (toBeBytes x).length = 8 := toBytes_length 8 _

theorem fromBeBytes_toBeBytes (x : UInt64) : fromBeBytes ⟨toBeBytes x, toBeBytes_length x⟩ = x := by
  have hx : x.toNat < 256 ^ 8 := x.toNat_lt
  change UInt64.ofNat (ofBytes (toBytes 8 x.toNat)) = x
  rw [ofBytes_toBytes, Nat.mod_eq_of_lt hx, UInt64.ofNat_toNat]

theorem tryFrom_toU8 (t : MessageType) : MessageType.tryFrom t.toU8 = .ok t := by
  cases t <;> rfl

theorem finalize_length (mac : Mac) : (mac.finalize h).length = 32 := h.size _ _

theorem verifySlice_finalize (mac : Mac) : mac.verifySlice h (mac.finalize h) = true := by
  simp [Mac.verifySlice]

@[simp] theorem update_update (mac : Mac) (a b : List UInt8) :
    (mac.update a).update b = mac.update (a ++ b) := by
  simp [Mac.update]

/-! ### The parts of a message -/

def typeOf : RegisterCommand → MessageType
  | .client ⟨_, .read⟩ => .read
  | .client ⟨_, .write _⟩ => .write
  | .system ⟨_, .readProc⟩ => .readProc
  | .system ⟨_, .value ..⟩ => .value
  | .system ⟨_, .writeProc ..⟩ => .writeProc
  | .system ⟨_, .ack⟩ => .ack

def rankOf : RegisterCommand → UInt8
  | .client _ => 0
  | .system cmd => cmd.header.processIdentifier

/-- The four bytes behind the magic number. -/
def headerOf (cmd : RegisterCommand) : Block UInt8 4 := ⟨[0, 0, rankOf cmd, (typeOf cmd).toU8], rfl⟩

/-- The bytes between header and tag. -/
def fieldsOf : RegisterCommand → List UInt8
  | .client ⟨header, content⟩ => toBeBytes header.requestIdentifier ++ (toBeBytes header.sectorIdx ++
    match content with
    | .read => []
    | .write data => data.data)
  | .system ⟨header, content⟩ => header.msgIdent.bytes ++ (toBeBytes header.sectorIdx ++
    match content with
    | .readProc | .ack => []
    | .value ts wr data | .writeProc ts wr data =>
      toBeBytes ts ++ ([0, 0, 0, 0, 0, 0, 0, wr] ++ data.data))

/-- The key for a command: client commands have the client key, system commands the system key. -/
def keyFor (keys : Keys) : RegisterCommand → List UInt8
  | .client _ => keys.hmacClientKey
  | .system _ => keys.hmacSystemKey

/-- Every sector a command carries has 4096 bytes. -/
def Sized : RegisterCommand → Prop
  | .client ⟨_, .write data⟩ => data.data.length = 4096
  | .system ⟨_, .value _ _ data⟩ | .system ⟨_, .writeProc _ _ data⟩ => data.data.length = 4096
  | _ => True

/-- The mac of a command, with all but the tag. -/
def macOf (keys : Keys) (cmd : RegisterCommand) : Mac :=
  (Mac.newFromSlice (keyFor keys cmd)).update (magicNumber ++ ((headerOf cmd).items ++ fieldsOf cmd))

theorem serializeRc_eq (cmd : RegisterCommand) : serializeRc h cmd (keyFor keys cmd) =
    magicNumber ++ ((headerOf cmd).items ++ (fieldsOf cmd ++ (macOf keys cmd).finalize h)) := by
  rcases cmd with ⟨header, _ | data⟩ | ⟨header, _ | _ | _ | _⟩ <;>
    simp [serializeRc, serializeClientRc, serializeSystemRc, macOf, headerOf, fieldsOf, typeOf, rankOf]

/-! ### Behind the header -/

theorem constructClientCommand_fields (mac : Mac) (cmd : ClientRegisterCommand)
    (hsized : Sized (.client cmd)) (rest : List UInt8) :
    constructClientCommand h mac (typeOf (.client cmd)) (fieldsOf (.client cmd) ++
      ((mac.update (fieldsOf (.client cmd))).finalize h ++ rest)) = .ok ((.client cmd, true), rest) := by
  obtain ⟨header, _ | data⟩ := cmd
  · simp only [fieldsOf, typeOf, List.append_assoc, List.nil_append]
    rw [constructClientCommand, Reader.bind_ok (readExact_front _ _ (toBeBytes_length _)),
      Reader.bind_ok (readExact_front _ _ (toBeBytes_length _))]
    simp only [pure_bind]
    rw [Reader.bind_ok (readExact_front _ _ (finalize_length _))]
    simp only [fromBeBytes_toBeBytes, update_update, List.append_nil, verifySlice_finalize]
    rfl
  · simp only [fieldsOf, typeOf, List.append_assoc]
    rw [constructClientCommand, Reader.bind_ok (readExact_front _ _ (toBeBytes_length _)),
      Reader.bind_ok (readExact_front _ _ (toBeBytes_length _))]
    dsimp only
    rw [Reader.bind_ok (readExact_front _ _ hsized)]
    simp only [pure_bind]
    rw [Reader.bind_ok (readExact_front _ _ (finalize_length _))]
    simp only [fromBeBytes_toBeBytes, update_update, List.append_assoc, verifySlice_finalize]
    rfl

theorem constructSystemCommand_fields (mac : Mac) (cmd : SystemRegisterCommand)
    (hcontent : cmd.content = .readProc ∨ cmd.content = .ack) (rest : List UInt8) :
    constructSystemCommand h mac cmd.header.processIdentifier (typeOf (.system cmd))
      (fieldsOf (.system cmd) ++ ((mac.update (fieldsOf (.system cmd))).finalize h ++ rest)) =
        .ok ((.system cmd, true), rest) := by
  obtain ⟨header, content⟩ := cmd
  rcases hcontent with rfl | rfl
  all_goals
    simp only [fieldsOf, typeOf, List.append_assoc, List.nil_append]
    rw [constructSystemCommand, Reader.bind_ok (readExact_front _ _ header.msgIdent.size),
      Reader.bind_ok (readExact_front _ _ (toBeBytes_length _)),
      Reader.bind_ok (readExact_front _ _ (finalize_length _))]
    simp only [pure_bind, fromBeBytes_toBeBytes, update_update, List.append_nil, verifySlice_finalize]
    rfl

theorem constructAdvancedSystemCommand_fields (mac : Mac) (cmd : SystemRegisterCommand)
    (hsized : Sized (.system cmd)) (hcontent : cmd.content ≠ .readProc ∧ cmd.content ≠ .ack)
    (rest : List UInt8) :
    constructAdvancedSystemCommand h mac cmd.header.processIdentifier (typeOf (.system cmd))
      (fieldsOf (.system cmd) ++ ((mac.update (fieldsOf (.system cmd))).finalize h ++ rest)) =
        .ok ((.system cmd, true), rest) := by
  obtain ⟨header, content⟩ := cmd
  cases content with
  | readProc => exact absurd rfl hcontent.1
  | ack => exact absurd rfl hcontent.2
  | _ ts wr data =>
    simp only [fieldsOf, typeOf, List.append_assoc]
    rw [constructAdvancedSystemCommand, Reader.bind_ok (readExact_front _ _ header.msgIdent.size),
      Reader.bind_ok (readExact_front _ _ (toBeBytes_length _)),
      Reader.bind_ok (readExact_front _ _ (toBeBytes_length _)),
      Reader.bind_ok (readExact_front (n := 8) [0, 0, 0, 0, 0, 0, 0, wr] _ rfl),
      Reader.bind_ok (readExact_front _ _ hsized),
      Reader.bind_ok (readExact_front _ _ (finalize_length _))]
    simp only [pure_bind, fromBeBytes_toBeBytes, update_update, List.append_assoc, verifySlice_finalize]
    rfl

theorem constructCommand_fields (cmd : RegisterCommand) (hsized : Sized cmd) (rest : List UInt8) :
    constructCommand h keys (headerOf cmd) (typeOf cmd)
      (fieldsOf cmd ++ ((macOf keys cmd).finalize h ++ rest)) = .ok ((cmd, true), rest) := by
  have hmac : macOf keys cmd = (((Mac.newFromSlice (keyFor keys cmd)).update magicNumber).update
      (headerOf cmd).items).update (fieldsOf cmd) := by simp [macOf]
  rw [hmac]
  cases cmd with
  | client cmd =>
    have hfields := constructClientCommand_fields (h := h) (((Mac.newFromSlice
      keys.hmacClientKey).update magicNumber).update (headerOf (.client cmd)).items) cmd hsized rest
    obtain ⟨header, _ | data⟩ := cmd <;> exact hfields
  | system cmd =>
    by_cases hcontent : cmd.content = .readProc ∨ cmd.content = .ack
    · have hfields := constructSystemCommand_fields (h := h) (((Mac.newFromSlice
        keys.hmacSystemKey).update magicNumber).update (headerOf (.system cmd)).items) cmd hcontent rest
      obtain ⟨header, content⟩ := cmd
      rcases hcontent with rfl | rfl <;> exact hfields
    · have hfields := constructAdvancedSystemCommand_fields (h := h) (((Mac.newFromSlice
        keys.hmacSystemKey).update magicNumber).update (headerOf (.system cmd)).items) cmd hsized
        (not_or.mp hcontent) rest
      obtain ⟨header, content⟩ := cmd
      cases content with
      | readProc => simp at hcontent
      | ack => simp at hcontent
      | _ ts wr data => exact hfields

/-! ### The magic number -/

/-- `deserialize_rc` goes on behind the first magic number of the stream. -/
theorem deserializeRc_eq (stream : List UInt8) : deserializeRc h keys stream =
    match afterFirst magicNumber stream with
    | none => .error .unexpectedEof
    | some rest => (readExact 4 >>= fun buff =>
        match MessageType.tryFrom (buff.get 3) with
        | .ok msgType => constructCommand h keys buff msgType
        | .error _ => throw .panic) rest := by
  rcases lt_or_ge stream.length 4 with hlt | hle
  · rw [afterFirst_short hlt, deserializeRc]
    exact Reader.bind_error (Reader.readExact_short hlt)
  · obtain ⟨window, rest, rfl, hw⟩ : ∃ window rest, stream = window ++ rest ∧ window.length = 4 :=
      ⟨stream.take 4, stream.drop 4, (List.take_append_drop _ _).symm, List.length_take_of_le hle⟩
    rw [deserializeRc, Reader.bind_ok (readExact_front _ _ hw),
      ← slide_eq_afterFirst hw (by decide)]
    cases hslide : slide magicNumber window rest with
    | none => exact Reader.bind_error (by simp [slideToMagicNumber, hslide])
    | some rest' => exact Reader.bind_ok (a := ()) (by simp [slideToMagicNumber, hslide])

/-- The first magic number behind noise is that of the command. -/
theorem afterFirst_serializeRc (noise rest : List UInt8) (cmd : RegisterCommand)
    (hnoise : ¬ magicNumber <:+: noise) :
    afterFirst magicNumber (noise ++ (serializeRc h cmd (keyFor keys cmd) ++ rest)) =
      some ((headerOf cmd).items ++ (fieldsOf cmd ++ ((macOf keys cmd).finalize h ++ rest))) := by
  rw [serializeRc_eq]
  simp only [List.append_assoc]
  exact afterFirst_noise _ (by decide) hnoise

theorem tryFrom_headerOf (cmd : RegisterCommand) :
    MessageType.tryFrom ((headerOf cmd).get 3) = .ok (typeOf cmd) := tryFrom_toU8 _

/-- One command, behind noise. -/
theorem deserializeRc_serializeRc (noise rest : List UInt8) (cmd : RegisterCommand)
    (hnoise : ¬ magicNumber <:+: noise) (hsized : Sized cmd) :
    deserializeRc h keys (noise ++ (serializeRc h cmd (keyFor keys cmd) ++ rest)) =
      .ok ((cmd, true), rest) := by
  rw [deserializeRc_eq, afterFirst_serializeRc noise rest cmd hnoise]
  simp only
  rw [Reader.bind_ok (readExact_front _ _ (headerOf cmd).size), tryFrom_headerOf]
  exact constructCommand_fields cmd hsized rest

/-! ### A stream of commands -/

/-- A command, with the noise in front of it. -/
structure Packet where
  noise : List UInt8
  cmd : RegisterCommand
  quiet : ¬ magicNumber <:+: noise
  sized : Sized cmd

/-- The packets on the wire. -/
def wire (h : Hmac) (keys : Keys) (ps : List Packet) : List UInt8 :=
  ps.flatMap fun p => p.noise ++ serializeRc h p.cmd (keyFor keys p.cmd)

/-- `deserialize_rc` called `n` times: what it returns, and what it leaves of the stream each time. -/
def deserializeTimes (h : Hmac) (keys : Keys) :
    ℕ → List UInt8 → Except Fault (List ((RegisterCommand × Bool) × List UInt8))
  | 0, _ => .ok []
  | n + 1, stream => do
    let (result, stream) ← deserializeRc h keys stream
    let results ← deserializeTimes h keys n stream
    pure ((result, stream) :: results)

/-- The commands in order, all with a valid tag, each with what comes after it. -/
def inOrder (h : Hmac) (keys : Keys) (rest : List UInt8) :
    List Packet → List ((RegisterCommand × Bool) × List UInt8)
  | [] => []
  | p :: ps => ((p.cmd, true), wire h keys ps ++ rest) :: inOrder h keys rest ps

/-- CORRECT (stream round trip): commands of any kind with any noise between them are read back in order,
    each with a valid tag, and each call has read exactly up to the end of its command. -/
theorem deserializeTimes_wire (h : Hmac) (keys : Keys) (ps : List Packet) (rest : List UInt8) :
    deserializeTimes h keys ps.length (wire h keys ps ++ rest) = .ok (inOrder h keys rest ps) := by
  induction ps with
  | nil => rfl
  | cons p ps ih =>
    have hwire : wire h keys (p :: ps) ++ rest = p.noise ++ (serializeRc h p.cmd (keyFor keys p.cmd) ++
        (wire h keys ps ++ rest)) := by simp [wire]
    rw [List.length_cons, deserializeTimes, hwire, deserializeRc_serializeRc _ _ _ p.quiet p.sized]
    simp only [bind, Except.bind, ih]
    rfl

/-- A client's write and a process's answer, each behind noise that ends like a magic number begins. -/
def noisyPackets : List Packet :=
  [⟨[0x61, 0x74, 0x64, 0x61, 0x74], .client ⟨⟨1, 0⟩, .write (filled 7)⟩, by decide, filled_length 7⟩,
    ⟨[0, 0x61, 0x74, 0x64], .system ⟨⟨2, uuid 1, 0⟩, .value 3 1 (filled 5)⟩, by decide, filled_length 5⟩]

theorem noisyPackets_read : (∀ p ∈ noisyPackets, magicNumber.take 2 <:+ p.noise ∨ magicNumber.take 3 <:+ p.noise) ∧
    deserializeTimes sumHmac ⟨[1], [2]⟩ 2 (wire sumHmac ⟨[1], [2]⟩ noisyPackets ++ [0x61]) =
      .ok [((.client ⟨⟨1, 0⟩, .write (filled 7)⟩, true), wire sumHmac ⟨[1], [2]⟩ (noisyPackets.drop 1) ++ [0x61]),
        ((.system ⟨⟨2, uuid 1, 0⟩, .value 3 1 (filled 5)⟩, true), [0x61])] :=
  ⟨by decide, deserializeTimes_wire sumHmac ⟨[1], [2]⟩ noisyPackets [0x61]⟩

end AtomicDisk.Transfer
