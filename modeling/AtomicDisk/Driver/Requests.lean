import AtomicDisk.Driver.TcpClient
import AtomicDisk.Transfer.RoundTrip

/-! Requests of the driver. The send buffer is filled from the front, field by field; its first seven bytes
    are those of `setup_send_buf` and whatever the memory held behind them, and no request touches them:

        │ a t d d NUL ? ? │ type │ ident │ sector │ data │ tag │ left over from longer requests
        └── start ────────┘                                    ▲ send_buf_pos

    The decoder of a process reads the same fields, and takes the tag over the same bytes. -/

namespace AtomicDisk.Driver
open Schemes Transfer

variable {h : Hmac} {c c' : AtddTcpClient} {rq : Request} {ident : UInt64} {l bytes start : List UInt8}

/-! ### The send buffer -/

/-- The bytes in front of the position. -/
structure Filled (c : AtddTcpClient) (l : List UInt8) : Prop where
  fits : c.sendBufPos ≤ maxCmdSize
  front : c.sendBuf.front c.sendBufPos = l

theorem Filled.length (hc : Filled c l) : l.length = c.sendBufPos := by
  rw [← hc.front, Block.front_length _ hc.fits]

/-- What is read in front of the position. -/
theorem Filled.load {off k : ℕ} (hc : Filled c l) (hk : off + k ≤ l.length) :
    c.sendBuf.load off k = some ((l.drop off).take k) := by
  rw [Block.load_front _ hc.fits (hc.length ▸ hk), hc.front]

/-- The first bytes, which a request does not touch. -/
theorem Filled.untouched (hc : Filled c (start ++ l)) (hstart : start.length = sendBufPosStart) :
    c.sendBuf.front sendBufPosStart = start := by
  have hlength := hc.length
  rw [List.length_append, hstart] at hlength
  rw [← Block.front_front _ (show sendBufPosStart ≤ c.sendBufPos by omega), hc.front,
    List.take_append_of_le_length hstart.ge, List.take_of_length_le hstart.le]

/-- A copy to the position. -/
theorem appendToSendBuf_filled (hc : Filled c l) (bytes : List UInt8)
    (hfits : l.length + bytes.length ≤ maxCmdSize) :
    ∃ c', appendToSendBuf c bytes = some c' ∧ Filled c' (l ++ bytes) ∧ c'.hmacKey = c.hmacKey := by
  rw [hc.length] at hfits
  obtain ⟨b, hstore, hfront, -⟩ := c.sendBuf.store_front hfits
  refine ⟨{ c with sendBuf := b, sendBufPos := c.sendBufPos + bytes.length }, ?_, ⟨hfits, ?_⟩, rfl⟩
  · rw [appendToSendBuf, hstore]
    rfl
  · exact hfront.trans (by rw [hc.front])

/-- The tag, and the position behind it. -/
theorem hmacTagPrepare_filled (hc : Filled c l) (hfits : l.length + hmacTagSize ≤ maxCmdSize) :
    ∃ c', hmacTagPrepare h c = some c' ∧
      Filled { c' with sendBufPos := c'.sendBufPos + hmacTagSize } (l ++ h.tag c.hmacKey l) ∧
      c'.hmacKey = c.hmacKey := by
  have htag : (h.tag c.hmacKey l).length = hmacTagSize := h.size _ _
  have hload : c.sendBuf.load 0 c.sendBufPos = some l := by
    rw [hc.load (by rw [hc.length, zero_add]), List.drop_zero, List.take_of_length_le hc.length.le]
  rw [hc.length] at hfits
  obtain ⟨b, hstore, hfront, -⟩ := c.sendBuf.store_front (htag.symm ▸ hfits)
  refine ⟨{ c with sendBuf := b }, ?_, ⟨hfits, ?_⟩, rfl⟩
  · rw [hmacTagPrepare, hload]
    simp only [Option.bind_eq_bind, Option.bind_some, hstore]
  · rw [htag] at hfront
    exact hfront.trans (by rw [hc.front])

/-! ### A request -/

def typeByte (rq : Request) : UInt8 := if rq.isWrite then writeCmd else readCmd

/-- The bytes between the type and the tag. -/
def fields (rq : Request) (ident : UInt64) : List UInt8 :=
  toBeBytes ident ++ (toBeBytes (rq.pos >>> 3) ++ if rq.isWrite then rq.data.items else [])

/-- What is in the buffer after a request, without the tag. -/
def content (start : List UInt8) (rq : Request) (ident : UInt64) : List UInt8 :=
  start ++ (typeByte rq :: fields rq ident)

theorem typeByte_eq_writeCmd : typeByte rq = writeCmd ↔ rq.isWrite = true := by
  cases hw : rq.isWrite <;> simp [typeByte, hw, writeCmd, readCmd]

/-- There is room for the longest request and its tag. -/
theorem content_fits (hstart : start.length = sendBufPosStart) :
    (content start rq ident).length + hmacTagSize ≤ maxCmdSize := by
  have hsize : rq.data.items.length = 4096 := rq.data.size
  simp only [content, fields, List.length_append, List.length_cons, toBeBytes_length, hstart,
    sendBufPosStart, hmacTagSize, maxCmdSize, atddRequestHeaderSize, sectorSize]
  split
  · omega
  · simp

/-- The data of a write request. -/
theorem appendData_filled (hstart : start.length = sendBufPosStart)
    (hc : Filled c (start ++ [typeByte rq] ++ toBeBytes ident ++ toBeBytes (rq.pos >>> 3))) :
    ∃ c', appendData c rq = some c' ∧ Filled c' (content start rq ident) ∧ c'.hmacKey = c.hmacKey := by
  have hload : c.sendBuf.load 7 1 = some [typeByte rq] := by
    rw [hc.load (by simp [hstart, sendBufPosStart])]
    simp [show start.length = 7 from hstart]
  have hfits : (content start rq ident).length + hmacTagSize ≤ maxCmdSize := content_fits hstart
  simp only [appendData, hload, Option.bind_eq_bind, Option.bind_some]
  cases hw : rq.isWrite with
  | true =>
    have hcontent : start ++ [typeByte rq] ++ toBeBytes ident ++ toBeBytes (rq.pos >>> 3) ++
        rq.data.items = content start rq ident := by simp [content, fields, hw]
    obtain ⟨c', hdata, hc', hkey⟩ := appendToSendBuf_filled hc rq.data.items
      (by rw [← List.length_append, hcontent]; omega)
    refine ⟨c', ?_, hcontent ▸ hc', hkey⟩
    rw [if_pos (by rw [typeByte_eq_writeCmd.mpr hw]), hdata]
  | false =>
    refine ⟨c, if_neg ?_, ?_, rfl⟩
    · simp [typeByte_eq_writeCmd, hw]
    · simpa [content, fields, hw] using hc

/-- The request is laid out behind the first seven bytes, with its tag. -/
theorem prepareCmdContent_filled (h : Hmac) (c : AtddTcpClient) (rq : Request) (ident : UInt64) :
    ∃ c', prepareCmdContent h c rq ident = some c' ∧ c'.hmacKey = c.hmacKey ∧
      Filled c' (content (c.sendBuf.front sendBufPosStart) rq ident ++
        h.tag c.hmacKey (content (c.sendBuf.front sendBufPosStart) rq ident)) := by
  have hbegin : Filled { c with sendBufPos := sendBufPosStart } (c.sendBuf.front sendBufPosStart) :=
    ⟨show 7 ≤ 4152 by omega, rfl⟩
  have hstart : (c.sendBuf.front sendBufPosStart).length = 7 := hbegin.length
  generalize c.sendBuf.front sendBufPosStart = start at hbegin hstart ⊢
  have hmax : maxCmdSize = 4152 := rfl
  obtain ⟨c₁, htype, hc₁, hk₁⟩ := appendToSendBuf_filled hbegin [typeByte rq]
    (by simp only [List.length_singleton]; omega)
  obtain ⟨c₂, hident, hc₂, hk₂⟩ := appendToSendBuf_filled hc₁ (toBeBytes ident)
    (by simp only [List.length_append, List.length_singleton, toBeBytes_length]; omega)
  obtain ⟨c₃, hsector, hc₃, hk₃⟩ := appendToSendBuf_filled hc₂ (toBeBytes (rq.pos >>> 3))
    (by simp only [List.length_append, List.length_singleton, toBeBytes_length]; omega)
  obtain ⟨c₄, hdata, hc₄, hk₄⟩ := appendData_filled hstart hc₃
  obtain ⟨c₅, htag, hc₅, hk₅⟩ := hmacTagPrepare_filled (h := h) hc₄ (content_fits hstart)
  have hkey : c₄.hmacKey = c.hmacKey := hk₄.trans (hk₃.trans (hk₂.trans hk₁))
  refine ⟨{ c₅ with sendBufPos := c₅.sendBufPos + hmacTagSize }, ?_, hk₅.trans hkey, hkey ▸ hc₅⟩
  rw [typeByte] at htype
  simp only [prepareCmdContent, htype, hident, hsector, hdata, htag, Option.bind_eq_bind,
    Option.bind_some]

/-! ### The decoder -/

/-- The client command that a request stands for. -/
def commandOf (rq : Request) (ident : UInt64) : ClientRegisterCommand :=
  ⟨⟨ident, rq.pos >>> 3⟩, if rq.isWrite then .write ⟨rq.data.items⟩ else .read⟩

theorem commandOf_sized : Sized (.client (commandOf rq ident)) := by
  cases hw : rq.isWrite
  · simp [commandOf, Sized, hw]
  · simp only [commandOf, hw, if_true, Sized]
    exact rq.data.size

theorem fieldsOf_commandOf : fieldsOf (.client (commandOf rq ident)) = fields rq ident := by
  cases hw : rq.isWrite <;> simp [fieldsOf, commandOf, fields, hw]

theorem toU8_commandOf : (typeOf (.client (commandOf rq ident))).toU8 = typeByte rq := by
  cases hw : rq.isWrite <;> simp [typeOf, commandOf, typeByte, hw, MessageType.toU8, writeCmd, readCmd]

theorem constructCommand_commandOf {keys : Keys} (buff : Block UInt8 4) :
    constructCommand h keys buff (typeOf (.client (commandOf rq ident))) =
      constructClientCommand h (((Mac.newFromSlice keys.hmacClientKey).update magicNumber).update
        buff.items) (typeOf (.client (commandOf rq ident))) := by
  cases hw : rq.isWrite <;> simp [constructCommand, typeOf, commandOf, hw]

/-- A request is decoded, whatever follows the magic number in the first seven bytes. -/
theorem deserializeRc_content {systemKey clientKey : List UInt8} (b₄ b₅ b₆ : UInt8) (rq : Request)
    (ident : UInt64) :
    let l := content (magicNumber ++ [b₄, b₅, b₆]) rq ident
    deserializeRc h ⟨systemKey, clientKey⟩ (l ++ h.tag clientKey l) =
      .ok ((.client (commandOf rq ident), true), []) := by
  intro l
  have hl : l = magicNumber ++ ([b₄, b₅, b₆, typeByte rq] ++ fields rq ident) := by
    simp [l, content]
  rw [deserializeRc_eq, hl, List.append_assoc, afterFirst_of_isPrefix (List.prefix_append _ _),
    List.drop_left]
  simp only [List.append_assoc]
  rw [Reader.bind_ok (readExact_front [b₄, b₅, b₆, typeByte rq] _ (rfl : _ = 4))]
  have htype : MessageType.tryFrom (Block.get ⟨[b₄, b₅, b₆, typeByte rq], rfl⟩ (3 : Fin 4)) =
      .ok (typeOf (.client (commandOf rq ident))) := by
    rw [← tryFrom_toU8, toU8_commandOf]
    rfl
  rw [htype]
  simp only [constructCommand_commandOf, ← fieldsOf_commandOf]
  have hfields := constructClientCommand_fields (h := h) (((Mac.newFromSlice clientKey).update
    magicNumber).update [b₄, b₅, b₆, typeByte rq]) (commandOf rq ident) commandOf_sized []
  simpa [Mac.finalize, Mac.update, Mac.newFromSlice] using hfields

/-! ### Behind other requests -/

/-- Requests that are prepared in the buffer one after the other. -/
def prepareAll (h : Hmac) (c : AtddTcpClient) : List (Request × UInt64) → Option AtddTcpClient
  | [] => some c
  | (rq, ident) :: rqs => do
    let c ← prepareCmdContent h c rq ident
    prepareAll h c rqs

/-- The first seven bytes outlast all requests. -/
theorem prepareAll_start (h : Hmac) (c : AtddTcpClient) (rqs : List (Request × UInt64)) :
    ∃ c', prepareAll h c rqs = some c' ∧ c'.hmacKey = c.hmacKey ∧
      c'.sendBuf.front sendBufPosStart = c.sendBuf.front sendBufPosStart := by
  induction rqs generalizing c with
  | nil => exact ⟨c, rfl, rfl, rfl⟩
  | cons p rqs ih =>
    obtain ⟨c₁, hprepare, hkey₁, hfilled⟩ := prepareCmdContent_filled h c p.1 p.2
    rw [content, List.append_assoc] at hfilled
    have hstart₁ := hfilled.untouched (c.sendBuf.front_length (by decide))
    obtain ⟨c₂, hrest, hkey₂, hstart₂⟩ := ih c₁
    refine ⟨c₂, ?_, hkey₂.trans hkey₁, hstart₂.trans hstart₁⟩
    rw [prepareAll, hprepare]
    exact hrest

/-- What `setup_send_buf` leaves in the first seven bytes. -/
theorem setupSendBuf_start (c : AtddTcpClient) : ∃ c', setupSendBuf c = some c' ∧
    c'.hmacKey = c.hmacKey ∧
    ∃ b₅ b₆, c'.sendBuf.front sendBufPosStart = magicNumber ++ [0, b₅, b₆] := by
  have hfits : 0 + (magicNumber ++ [0]).length ≤ maxCmdSize := by decide
  obtain ⟨b, hstore, hfront, -⟩ := c.sendBuf.store_front hfits
  refine ⟨{ c with sendBuf := b }, by rw [setupSendBuf, hstore]; rfl, rfl, ?_⟩
  have hlength : (b.front 7).length = 7 := b.front_length (by decide)
  have hfive : (b.front 7).take 5 = magicNumber ++ [0] := (b.front_front (by omega)).trans hfront
  match hb : b.front 7, hlength with
  | [a₀, a₁, a₂, a₃, a₄, b₅, b₆], _ =>
    rw [hb] at hfive
    refine ⟨b₅, b₆, ?_⟩
    rw [← List.take_append_drop 5 [a₀, a₁, a₂, a₃, a₄, b₅, b₆], hfive]
    rfl

/-- CORRECT (requests): whatever the send buffer holds when the client is created and whatever requests
    have been prepared in it since, the process decodes what `prepare_cmd_content` leaves in it to the
    command of the request, with a valid HMAC and no byte left over. -/
theorem prepared_decodes (h : Hmac) (systemKey : List UInt8) (c₀ : AtddTcpClient)
    (earlier : List (Request × UInt64)) (rq : Request) (ident : UInt64) :
    ∃ c₁ c₂ c₃, setupSendBuf c₀ = some c₁ ∧ prepareAll h c₁ earlier = some c₂ ∧
      prepareCmdContent h c₂ rq ident = some c₃ ∧
      deserializeRc h ⟨systemKey, c₀.hmacKey⟩ (c₃.sendBuf.front c₃.sendBufPos) =
        .ok ((.client ⟨⟨ident, rq.pos >>> 3⟩,
          if rq.isWrite then .write ⟨rq.data.items⟩ else .read⟩, true), []) := by
  obtain ⟨c₁, hsetup, hkey₁, b₅, b₆, hstart₁⟩ := setupSendBuf_start c₀
  obtain ⟨c₂, hearlier, hkey₂, hstart₂⟩ := prepareAll_start h c₁ earlier
  obtain ⟨c₃, hprepare, -, hfilled⟩ := prepareCmdContent_filled h c₂ rq ident
  refine ⟨c₁, c₂, c₃, hsetup, hearlier, hprepare, ?_⟩
  rw [hfilled.front, hstart₂, hstart₁, hkey₂, hkey₁]
  exact deserializeRc_content 0 b₅ b₆ rq ident

end AtomicDisk.Driver
