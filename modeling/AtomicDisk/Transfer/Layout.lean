import AtomicDisk.Transfer.Frames
import Mathlib.Tactic.IntervalCases

/-! The bytes of a message that has been read. Up to the end of its content every byte but the padding is
    told again by the command that is returned, and the tag is compared with that of all of them, padding
    included:

        client   │ magic (4) │ – – – type │ request id (8) │ sector (8) │ data (4096) │ tag (32)
        system   │ magic (4) │ – – rank type │ op id (16) │ sector (8) │ tag (32)
        VALUE    │ magic (4) │ – – rank type │ op id (16) │ sector (8) │ ts (8) │ – … – wr (8) │ data │ tag
        position   0           4              8                            32       40            48

    So to serialize the command again gives the message back, with zeros in place of the padding. -/

namespace AtomicDisk.Transfer
open Schemes

variable {h : Hmac} {keys : Keys} {t : MessageType} {stream body rest : List UInt8}
  {m : RegisterCommand × Bool}

/-! ### Positions -/

/-- The length of a message from the magic number to the end of the content. -/
def contentEnd : MessageType → ℕ
  | .read => 24
  | .write => 24 + 4096
  | .readProc | .ack => 32
  | .value | .writeProc => 48 + 4096

/-- The positions of the padding. -/
def padding : MessageType → List ℕ
  | .read | .write => [4, 5, 6]
  | .readProc | .ack => [4, 5]
  | .value | .writeProc => [4, 5, 40, 41, 42, 43, 44, 45, 46]

/-- The key of a message type: the client key for 0x01 and 0x02, the system key for 0x03 to 0x06. -/
def keyOf (keys : Keys) : MessageType → List UInt8
  | .read | .write => keys.hmacClientKey
  | .readProc | .value | .writeProc | .ack => keys.hmacSystemKey

theorem keyFor_eq (cmd : RegisterCommand) : keyFor keys cmd = keyOf keys (typeOf cmd) := by
  rcases cmd with ⟨header, _ | data⟩ | ⟨header, _ | _ | _ | _⟩ <;> rfl

theorem toU8_of_tryFrom {b : UInt8} (ht : MessageType.tryFrom b = .ok t) : t.toU8 = b := by
  unfold MessageType.tryFrom at ht
  split_ifs at ht with h₁ h₂ h₃ h₄ h₅ h₆
  all_goals
    obtain rfl := Except.ok.inj ht
    subst b
    rfl

theorem toBeBytes_fromBeBytes (b : Block UInt8 8) : toBeBytes (fromBeBytes b) = b.items := by
  have hlt : ofBytes b.items < 2 ^ 64 := by
    have := ofBytes_lt b.items
    rwa [b.size] at this
  have hback := toBytes_ofBytes b.items
  rw [b.size] at hback
  rw [toBeBytes, fromBeBytes, UInt64.toNat_ofNat_of_lt' hlt, hback]

/-! ### Behind the header -/

/-- A command read behind a header: `fields` up to the tag, and the command they are the fields of. -/
structure Parsed (h : Hmac) (mac : Mac) (t : MessageType) (body : List UInt8) (m : RegisterCommand × Bool)
    (rest fields tag : List UInt8) : Prop where
  split : body = fields ++ (tag ++ rest)
  size : 8 + fields.length = contentEnd t
  tagSize : tag.length = 32
  type : typeOf m.1 = t
  again : fieldsOf m.1 = blank 0 (padding t) 8 fields
  valid : m.2 = (mac.update fields).verifySlice h tag

theorem constructClientCommand_parsed {mac : Mac} (hs : constructClientCommand h mac t body = .ok (m, rest)) :
    ∃ fields tag, Parsed h mac t body m rest fields tag ∧ rankOf m.1 = 0 := by
  obtain ⟨b₁, s₁, rfl, hs₁⟩ := Reader.readExact_bind_eq_ok hs
  obtain ⟨b₂, s₂, rfl, hs₂⟩ := Reader.readExact_bind_eq_ok hs₁
  cases t with
  | read =>
    simp only [pure_bind] at hs₂
    obtain ⟨tag, s₃, rfl, hs₃⟩ := Reader.readExact_bind_eq_ok hs₂
    obtain ⟨rfl, rfl⟩ := Prod.mk.inj (Except.ok.inj hs₃)
    refine ⟨b₁.items ++ b₂.items, tag.items, ⟨by simp, ?_, tag.size, rfl, ?_, ?_⟩, rfl⟩
    · simp [b₁.size, b₂.size, contentEnd]
    · rw [blank_eq_self 0 (n := 16) (by simp [b₁.size, b₂.size]) (by decide)]
      simp [fieldsOf, toBeBytes_fromBeBytes]
    · simp
  | write =>
    obtain ⟨data, s₃, rfl, hs₃⟩ := Reader.readExact_bind_eq_ok hs₂
    simp only [pure_bind] at hs₃
    obtain ⟨tag, s₄, rfl, hs₄⟩ := Reader.readExact_bind_eq_ok hs₃
    obtain ⟨rfl, rfl⟩ := Prod.mk.inj (Except.ok.inj hs₄)
    refine ⟨b₁.items ++ (b₂.items ++ data.items), tag.items, ⟨by simp, ?_, tag.size, rfl, ?_, ?_⟩, rfl⟩
    · simp [b₁.size, b₂.size, data.size, contentEnd]
    · rw [blank_eq_self 0 (n := 16 + 4096) (by simp [b₁.size, b₂.size, data.size]) (by decide)]
      simp [fieldsOf, toBeBytes_fromBeBytes]
    · simp
  | _ =>
    obtain ⟨x, s₃, h₃, -⟩ := Reader.bind_eq_ok hs₂
    cases h₃

theorem constructSystemCommand_parsed {mac : Mac} {rank : UInt8}
    (hs : constructSystemCommand h mac rank t body = .ok (m, rest)) :
    ∃ fields tag, Parsed h mac t body m rest fields tag ∧ rankOf m.1 = rank := by
  obtain ⟨b₁, s₁, rfl, hs₁⟩ := Reader.readExact_bind_eq_ok hs
  obtain ⟨b₂, s₂, rfl, hs₂⟩ := Reader.readExact_bind_eq_ok hs₁
  obtain ⟨tag, s₃, rfl, hs₃⟩ := Reader.readExact_bind_eq_ok hs₂
  cases t with
  | readProc | ack =>
    simp only [pure_bind] at hs₃
    obtain ⟨rfl, rfl⟩ := Prod.mk.inj (Except.ok.inj hs₃)
    refine ⟨b₁.items ++ b₂.items, tag.items, ⟨by simp, ?_, tag.size, rfl, ?_, ?_⟩, rfl⟩
    · simp [b₁.size, b₂.size, contentEnd]
    · rw [blank_eq_self 0 (n := 24) (by simp [b₁.size, b₂.size]) (by decide)]
      simp [fieldsOf, toBeBytes_fromBeBytes, uuidFromSlice]
    · simp
  | _ =>
    obtain ⟨x, s₄, h₄, -⟩ := Reader.bind_eq_ok hs₃
    cases h₄

/-- The eight bytes of the write rank, of which seven are padding. -/
theorem blank_writeRank (b : Block UInt8 8) :
    blank 0 [4, 5, 40, 41, 42, 43, 44, 45, 46] 40 b.items = [0, 0, 0, 0, 0, 0, 0, b.get 7] := by
  refine List.ext_getElem (by simp [b.size]) fun j hj _ => ?_
  rw [blank_length, b.size] at hj
  simp only [blank, List.getElem_mapIdx]
  interval_cases j <;> rfl

theorem constructAdvancedSystemCommand_parsed {mac : Mac} {rank : UInt8}
    (hs : constructAdvancedSystemCommand h mac rank t body = .ok (m, rest)) :
    ∃ fields tag, Parsed h mac t body m rest fields tag ∧ rankOf m.1 = rank := by
  obtain ⟨b₁, s₁, rfl, hs₁⟩ := Reader.readExact_bind_eq_ok hs
  obtain ⟨b₂, s₂, rfl, hs₂⟩ := Reader.readExact_bind_eq_ok hs₁
  obtain ⟨b₃, s₃, rfl, hs₃⟩ := Reader.readExact_bind_eq_ok hs₂
  obtain ⟨b₄, s₄, rfl, hs₄⟩ := Reader.readExact_bind_eq_ok hs₃
  obtain ⟨data, s₅, rfl, hs₅⟩ := Reader.readExact_bind_eq_ok hs₄
  obtain ⟨tag, s₆, rfl, hs₆⟩ := Reader.readExact_bind_eq_ok hs₅
  cases t with
  | value | writeProc =>
    simp only [pure_bind] at hs₆
    obtain ⟨rfl, rfl⟩ := Prod.mk.inj (Except.ok.inj hs₆)
    refine ⟨(b₁.items ++ (b₂.items ++ b₃.items)) ++ (b₄.items ++ data.items), tag.items,
      ⟨by simp, ?_, tag.size, rfl, ?_, ?_⟩, rfl⟩
    · simp [b₁.size, b₂.size, b₃.size, b₄.size, data.size, contentEnd]
    · have hfront : (b₁.items ++ (b₂.items ++ b₃.items)).length = 32 := by
        simp [b₁.size, b₂.size, b₃.size]
      rw [blank_append, hfront, blank_eq_self 0 hfront (by decide), blank_append, b₄.size, padding,
        blank_writeRank, blank_eq_self 0 data.size (by decide)]
      simp [fieldsOf, toBeBytes_fromBeBytes, uuidFromSlice]
    · simp
  | _ =>
    obtain ⟨x, s₇, h₇, -⟩ := Reader.bind_eq_ok hs₆
    cases h₇

/-- The mac with which the fields of a command are read. -/
def headerMac (keys : Keys) (t : MessageType) (buff : Block UInt8 4) : Mac :=
  (Mac.newFromSlice (keyOf keys t)).update (magicNumber ++ buff.items)

theorem headerOf_blank {buff : Block UInt8 4} {cmd : RegisterCommand}
    (ht : MessageType.tryFrom (buff.get 3) = .ok (typeOf cmd))
    (hrank : rankOf cmd = 0 ∧ 6 ∈ padding (typeOf cmd) ∨ rankOf cmd = buff.get 2 ∧ 6 ∉ padding (typeOf cmd)) :
    (headerOf cmd).items = blank 0 (padding (typeOf cmd)) 4 buff.items := by
  have htype : (typeOf cmd).toU8 = buff.get 3 := toU8_of_tryFrom ht
  have hfront : 4 ∈ padding (typeOf cmd) ∧ 5 ∈ padding (typeOf cmd) ∧ 7 ∉ padding (typeOf cmd) := by
    cases typeOf cmd <;> decide
  refine List.ext_getElem (by simp [buff.size, (headerOf cmd).size]) fun j hj _ => ?_
  rw [(headerOf cmd).size] at hj
  simp only [blank, List.getElem_mapIdx]
  interval_cases j
  · exact (if_pos hfront.1).symm
  · exact (if_pos hfront.2.1).symm
  · rcases hrank with ⟨hrank, hpad⟩ | ⟨hrank, hpad⟩
    · exact hrank.trans (if_pos hpad).symm
    · exact hrank.trans (if_neg hpad).symm
  · exact htype.trans (if_neg hfront.2.2).symm

theorem constructCommand_parsed {buff : Block UInt8 4} (ht : MessageType.tryFrom (buff.get 3) = .ok t)
    (hs : constructCommand h keys buff t body = .ok (m, rest)) :
    ∃ fields tag, Parsed h (headerMac keys t buff) t body m rest fields tag ∧
      (headerOf m.1).items = blank 0 (padding t) 4 buff.items := by
  unfold constructCommand at hs
  cases t with
  | read | write =>
    simp only [update_update] at hs
    obtain ⟨fields, tag, hp, hrank⟩ := constructClientCommand_parsed hs
    refine ⟨fields, tag, hp, ?_⟩
    have htype := hp.type
    rw [← htype] at ht ⊢
    exact headerOf_blank ht (Or.inl ⟨hrank, by rw [htype]; decide⟩)
  | readProc | ack =>
    simp only [update_update] at hs
    obtain ⟨fields, tag, hp, hrank⟩ := constructSystemCommand_parsed hs
    refine ⟨fields, tag, hp, ?_⟩
    have htype := hp.type
    rw [← htype] at ht ⊢
    exact headerOf_blank ht (Or.inr ⟨hrank, by rw [htype]; decide⟩)
  | value | writeProc =>
    simp only [update_update] at hs
    obtain ⟨fields, tag, hp, hrank⟩ := constructAdvancedSystemCommand_parsed hs
    refine ⟨fields, tag, hp, ?_⟩
    have htype := hp.type
    rw [← htype] at ht ⊢
    exact headerOf_blank ht (Or.inr ⟨hrank, by rw [htype]; decide⟩)

/-- The other key plays no part. -/
theorem constructCommand_key {keys' : Keys} (hkey : keyOf keys' t = keyOf keys t) (buff : Block UInt8 4) :
    constructCommand h keys' buff t = constructCommand h keys buff t := by
  cases t <;> simp only [keyOf] at hkey <;> simp only [constructCommand, hkey]

/-! ### Whole messages -/

/-- A message that is read as `m`: its bytes up to the end of the content, and its tag. -/
structure Message (h : Hmac) (keys : Keys) (m : RegisterCommand × Bool) (content tag : List UInt8) : Prop where
  size : content.length = contentEnd (typeOf m.1)
  tagSize : tag.length = 32
  type : ∃ b, content[7]? = some b ∧ MessageType.tryFrom b = .ok (typeOf m.1)
  again : magicNumber ++ ((headerOf m.1).items ++ fieldsOf m.1) = blank 0 (padding (typeOf m.1)) 0 content
  valid : m.2 = true ↔ tag = h.tag (keyOf keys (typeOf m.1)) content

theorem Parsed.message {buff : Block UInt8 4} {fields tag : List UInt8}
    (hp : Parsed h (headerMac keys t buff) t body m rest fields tag)
    (ht : MessageType.tryFrom (buff.get 3) = .ok t)
    (hheader : (headerOf m.1).items = blank 0 (padding t) 4 buff.items) :
    Message h keys m (magicNumber ++ (buff.items ++ fields)) tag := by
  obtain rfl := hp.type
  have hmagic : magicNumber.length = 4 := rfl
  refine ⟨?_, hp.tagSize, ⟨buff.get 3, ?_, ht⟩, ?_, ?_⟩
  · rw [List.length_append, List.length_append, hmagic, buff.size, ← hp.size]
    omega
  · rw [List.getElem?_append_right (by decide), List.getElem?_append_left (by rw [buff.size]; decide)]
    exact List.getElem?_eq_getElem (by rw [buff.size]; decide)
  · have hkept : blank 0 (padding (typeOf m.1)) 0 magicNumber = magicNumber :=
      blank_eq_self 0 hmagic (by cases typeOf m.1 <;> decide)
    rw [blank_append, blank_append, hmagic, buff.size, hkept, ← hheader, ← hp.again]
  · rw [hp.valid, headerMac, update_update, Mac.verifySlice, beq_iff_eq, List.append_assoc]
    rfl

/-- `deserialize_rc` from the header behind the first magic number on. -/
theorem deserializeRc_header {i : ℕ} {buff : Block UInt8 4} (hi : IsLeast {i | magicNumber <+: stream.drop i} i)
    (hdrop : stream.drop i = magicNumber ++ (buff.items ++ body))
    (ht : MessageType.tryFrom (buff.get 3) = .ok t) :
    deserializeRc h keys stream = constructCommand h keys buff t body := by
  rw [deserializeRc_eq, afterFirst_of_least hi hdrop]
  simp only
  rw [Reader.bind_ok (readExact_front _ _ buff.size), ht]

/-- What `deserialize_rc` returns is the message at the first magic number, and it is returned for these
    bytes and this key wherever they are found. -/
theorem deserializeRc_message (hs : deserializeRc h keys stream = .ok (m, rest)) :
    ∃ i content tag, IsLeast {i | magicNumber <+: stream.drop i} i ∧
      stream.drop i = content ++ (tag ++ rest) ∧ Message h keys m content tag ∧
      ∀ keys' stream' i' rest', keyOf keys' (typeOf m.1) = keyOf keys (typeOf m.1) →
        IsLeast {i | magicNumber <+: stream'.drop i} i' → stream'.drop i' = content ++ (tag ++ rest') →
        deserializeRc h keys' stream' = .ok (m, rest') := by
  have hs' := hs
  rw [deserializeRc_eq] at hs'
  split at hs'
  · cases hs'
  · rename_i behind hfirst
    obtain ⟨i, hi, hdrop⟩ := afterFirst_least hfirst
    obtain ⟨buff, body, rfl, hread⟩ := Reader.readExact_bind_eq_ok hs'
    cases ht : MessageType.tryFrom (buff.get 3) with
    | error e =>
      rw [ht] at hread
      cases hread
    | ok t =>
      rw [ht] at hread
      obtain ⟨fields, tag, hp, hheader⟩ := constructCommand_parsed ht hread
      obtain rfl := hp.type
      refine ⟨i, magicNumber ++ (buff.items ++ fields), tag, hi, ?_, hp.message ht hheader, ?_⟩
      · rw [hdrop, hp.split]
        simp
      · intro keys' stream' i' rest' hkey hi' hdrop'
        obtain ⟨frame, hframe, hagain⟩ := (constructCommand_reads h keys buff _).framed _ _ _ hread
        obtain rfl : fields ++ tag = frame := by
          rw [hp.split, ← List.append_assoc] at hframe
          exact List.append_cancel_right hframe
        have hbehind : stream'.drop i' = magicNumber ++ (buff.items ++ (fields ++ tag ++ rest')) := by
          rw [hdrop']
          simp
        rw [deserializeRc_header hi' hbehind ht, constructCommand_key hkey, hagain]

/-! ### Tags -/

theorem drop_of_drop {l a b : List UInt8} {i n : ℕ} (h : l.drop i = a ++ b) (ha : a.length = n) :
    l.drop (i + n) = b := by
  rw [← List.drop_drop, h, List.drop_left' ha]

/-- CORRECT (exact authentication): the flag that `deserialize_rc` returns says whether the 32 bytes behind
    the content are the tag of everything from the first magic number to the end of the content, under the
    key of the message type. Nothing else counts: neither the other key, nor what comes before the magic
    number or after the tag. -/
theorem exact_authentication {cmd : RegisterCommand} {flag : Bool}
    (hs : deserializeRc h keys stream = .ok ((cmd, flag), rest)) :
    ∃ i t, IsLeast {i | magicNumber <+: stream.drop i} i ∧
      (∃ b, stream[i + 7]? = some b ∧ MessageType.tryFrom b = .ok t) ∧
      i + contentEnd t + 32 ≤ stream.length ∧
      (flag = true ↔ (stream.drop (i + contentEnd t)).take 32 =
        h.tag (keyOf keys t) ((stream.drop i).take (contentEnd t))) ∧
      ∀ keys' stream' i', keyOf keys' t = keyOf keys t → IsLeast {i | magicNumber <+: stream'.drop i} i' →
        (stream'.drop i').take (contentEnd t + 32) = (stream.drop i).take (contentEnd t + 32) →
        deserializeRc h keys' stream' = .ok ((cmd, flag), stream'.drop (i' + (contentEnd t + 32))) := by
  obtain ⟨i, content, tag, hi, hdrop, hm, hagain⟩ := deserializeRc_message hs
  refine ⟨i, typeOf cmd, hi, ?_, ?_, ?_, ?_⟩
  · obtain ⟨b, hb, ht⟩ := hm.type
    refine ⟨b, ?_, ht⟩
    have hlt : 7 < content.length := (List.getElem?_eq_some_iff.mp hb).1
    rw [← List.getElem?_drop, hdrop, List.getElem?_append_left hlt, hb]
  · have hlength := congrArg List.length hdrop
    simp only [List.length_drop, List.length_append, hm.size, hm.tagSize] at hlength
    omega
  · rw [drop_of_drop hdrop hm.size, hdrop, List.take_left' hm.tagSize, List.take_left' hm.size]
    exact hm.valid
  · intro keys' stream' i' hkey hi' hsame
    have hboth : (content ++ tag).length = contentEnd (typeOf cmd) + 32 := by
      rw [List.length_append, hm.size, hm.tagSize]
    rw [hdrop, ← List.append_assoc, List.take_left' hboth] at hsame
    refine hagain keys' stream' i' _ hkey hi' ?_
    rw [← List.drop_drop, ← List.append_assoc, ← hsame, List.take_append_drop]

/-- A READ behind noise that ends like a magic number begins, and its tag. -/
theorem noisyRead_authenticated : ∃ stream : List UInt8,
    deserializeRc sumHmac ⟨[1], [2]⟩ stream = .ok ((readCommand, true), [9]) ∧
      ∃ i t, IsLeast {i | magicNumber <+: stream.drop i} i ∧ (stream.drop (i + contentEnd t)).take 32 =
        sumHmac.tag (keyOf ⟨[1], [2]⟩ t) ((stream.drop i).take (contentEnd t)) := by
  have hs : deserializeRc sumHmac ⟨[1], [2]⟩ ([5, 0x61] ++ serializeRc sumHmac readCommand [2] ++ [9]) =
      .ok ((readCommand, true), [9]) := by decide +kernel
  obtain ⟨i, t, hi, -, -, hflag, -⟩ := exact_authentication hs
  exact ⟨_, hs, i, t, hi, hflag.mp rfl⟩

/-! ### Serializing what has been read -/

theorem serializeRc_content {cmd : RegisterCommand} {content : List UInt8}
    (hsame : magicNumber ++ ((headerOf cmd).items ++ fieldsOf cmd) = content) :
    serializeRc h cmd (keyFor keys cmd) = content ++ h.tag (keyFor keys cmd) content := by
  rw [serializeRc_eq, macOf, Mac.finalize, ← hsame]
  simp [Mac.update, Mac.newFromSlice]

/-- Nothing is lost in blanking what is blank. -/
theorem blank_eq_iff {pad : List ℕ} {content : List UInt8} (hpad : ∀ p ∈ pad, p < content.length) :
    blank 0 pad 0 content = content ↔ ∀ p ∈ pad, content[p]? = some 0 := by
  constructor
  · intro heq p hp
    have hget := getElem?_blank 0 pad content p
    rw [heq, List.getElem?_eq_getElem (hpad p hp), Option.map_some, if_pos hp] at hget
    rw [List.getElem?_eq_getElem (hpad p hp), hget]
  · intro hzero
    refine List.ext_getElem? fun j => ?_
    rw [getElem?_blank]
    by_cases hj : j ∈ pad
    · simp [hzero j hj]
    · simp [hj]

theorem padding_lt (t : MessageType) : ∀ p ∈ padding t, p < contentEnd t := by
  cases t <;> decide

/-- CORRECT (encoding undoes decoding): the command that `deserialize_rc` returns, serialized under the key of
    its kind, is the message that was read, but with zeros in the padding and a valid tag; so it is that
    message exactly if its padding was zero and its tag valid. -/
theorem serializeRc_of_deserializeRc {cmd : RegisterCommand} {flag : Bool}
    (hs : deserializeRc h keys stream = .ok ((cmd, flag), rest)) :
    ∃ i bytes, IsLeast {i | magicNumber <+: stream.drop i} i ∧ stream.drop i = bytes ++ rest ∧
      (serializeRc h cmd (keyFor keys cmd)).length = bytes.length ∧
      (∀ j, j + 32 < bytes.length → (serializeRc h cmd (keyFor keys cmd))[j]? =
        if j ∈ padding (typeOf cmd) then some 0 else bytes[j]?) ∧
      (serializeRc h cmd (keyFor keys cmd) = bytes ↔
        (∀ j ∈ padding (typeOf cmd), bytes[j]? = some 0) ∧ flag = true) := by
  obtain ⟨i, content, tag, hi, hdrop, hm, -⟩ := deserializeRc_message hs
  have hlength : (blank 0 (padding (typeOf cmd)) 0 content).length = content.length := blank_length ..
  have hpad : ∀ p ∈ padding (typeOf cmd), p < content.length := hm.size ▸ padding_lt (typeOf cmd)
  rw [serializeRc_content hm.again, keyFor_eq]
  refine ⟨i, content ++ tag, hi, by rw [hdrop, List.append_assoc], ?_, fun j hj => ?_, ?_⟩
  · rw [List.length_append, List.length_append, hlength, h.size, hm.tagSize]
  · rw [List.length_append, hm.tagSize] at hj
    have hlt : j < content.length := by omega
    rw [List.getElem?_append_left (hlength.symm ▸ hlt), List.getElem?_append_left hlt, getElem?_blank,
      List.getElem?_eq_getElem hlt]
    split <;> simp [*]
  · have hzero : (∀ j ∈ padding (typeOf cmd), (content ++ tag)[j]? = some 0) ↔
        ∀ j ∈ padding (typeOf cmd), content[j]? = some 0 := by
      refine forall₂_congr fun j hj => ?_
      rw [List.getElem?_append_left (hpad j hj)]
    rw [hzero, ← blank_eq_iff hpad]
    have hvalid : flag = true ↔ tag = h.tag (keyOf keys (typeOf cmd)) content := hm.valid
    constructor
    · intro heq
      obtain ⟨hblank, htag⟩ := List.append_inj heq hlength
      rw [hblank] at htag
      exact ⟨hblank, hvalid.mpr htag.symm⟩
    · rintro ⟨hblank, hflag⟩
      rw [hblank, ← hvalid.mp hflag]

/-- A READ with padding that is not zero, with its tag. -/
def paddedRead : List UInt8 :=
  let content := magicNumber ++ [7, 0, 0, 1] ++ toBeBytes 7 ++ toBeBytes 0
  content ++ sumHmac.tag [2] content

/-- It is read, and what is serialized is not what was read. -/
theorem paddedRead_changed : deserializeRc sumHmac ⟨[1], [2]⟩ paddedRead = .ok ((readCommand, true), []) ∧
    ∃ i bytes, IsLeast {i | magicNumber <+: paddedRead.drop i} i ∧ paddedRead.drop i = bytes ++ [] ∧
      (serializeRc sumHmac readCommand [2] = bytes ↔ ∀ j ∈ [4, 5, 6], bytes[j]? = some 0) ∧
      serializeRc sumHmac readCommand [2] ≠ bytes := by
  have hs : deserializeRc sumHmac ⟨[1], [2]⟩ paddedRead = .ok ((readCommand, true), []) := by decide +kernel
  obtain ⟨i, bytes, hi, hdrop, -, -, hiff⟩ := serializeRc_of_deserializeRc hs
  have hpadding : serializeRc sumHmac readCommand [2] = bytes ↔ ∀ j ∈ [4, 5, 6], bytes[j]? = some 0 :=
    hiff.trans ⟨fun hzero => hzero.1, fun hzero => ⟨hzero, rfl⟩⟩
  refine ⟨hs, i, bytes, hi, hdrop, hpadding, fun heq => ?_⟩
  have hfront : magicNumber <+: paddedRead.drop 0 := by decide
  obtain rfl : i = 0 := Nat.le_zero.mp (hi.2 hfront)
  obtain rfl : paddedRead = bytes := by simpa using hdrop
  exact absurd (hpadding.mp heq 4 (by simp)) (by decide)

end AtomicDisk.Transfer
