import AtomicDisk.Transfer.Layout
import Mathlib.Data.List.Forall2

/-! Where messages begin and end. The type in a header fixes how much is read behind it, whatever the bytes
    there are and whether or not the tag is valid, so bodies can be changed at will without moving the
    messages after them:

        │ header │ body │ header │ body │ header │ body │
        │ header │ ???? │ header │ body │ header │ ???? │        the same kinds at the same offsets
        │ header │ body │ header │ bo                            the second is cut: an error -/

namespace AtomicDisk.Transfer
open Schemes

variable {h : Hmac} {keys : Keys} {t : MessageType} {buff : Block UInt8 4} {m : List UInt8}

/-! ### Frames -/

/-- The bytes are a header of type `t`, with a body as long as that of a message of this type. -/
structure FrameOf (t : MessageType) (buff : Block UInt8 4) (body m : List UInt8) : Prop where
  split : m = magicNumber ++ (buff.items ++ body)
  type : MessageType.tryFrom (buff.get 3) = .ok t
  size : body.length = bodySize t

variable {body : List UInt8}

/-- A magic number in front is the first one. -/
theorem isLeast_front {s : List UInt8} (hs : magicNumber <+: s) : IsLeast {i | magicNumber <+: s.drop i} 0 :=
  ⟨hs, fun _ _ => Nat.zero_le _⟩

/-- A frame is read as one message of its type, whatever its body. -/
theorem FrameOf.read (hf : FrameOf t buff body m) (h : Hmac) (keys : Keys) :
    ∃ r : RegisterCommand × Bool, typeOf r.1 = t ∧ ∀ rest, deserializeRc h keys (m ++ rest) = .ok (r, rest) := by
  have hheader : ∀ rest, deserializeRc h keys (m ++ rest) = constructCommand h keys buff t (body ++ rest) := by
    intro rest
    have hsplit : m ++ rest = magicNumber ++ (buff.items ++ (body ++ rest)) := by simp [hf.split]
    exact deserializeRc_header (isLeast_front ⟨_, hsplit.symm⟩) (by rw [List.drop_zero, hsplit]) hf.type
  obtain ⟨r, hr⟩ := ((constructCommand_reads h keys buff t).takes body).1 hf.size.ge
  rw [← hf.size, List.drop_length] at hr
  obtain ⟨frame, hframe, hagain⟩ := (constructCommand_reads h keys buff t).framed _ _ _ hr
  obtain rfl : body = frame := by simpa using hframe
  obtain ⟨fields, tag, hp, -⟩ := constructCommand_parsed hf.type hr
  exact ⟨r, hp.type, fun rest => (hheader rest).trans (hagain rest)⟩

/-- A frame that is cut cannot be read. -/
theorem FrameOf.cut (hf : FrameOf t buff body m) (h : Hmac) (keys : Keys) {c : ℕ} (hc : c < m.length) :
    deserializeRc h keys (m.take c) = .error .unexpectedEof := by
  have hmagic : magicNumber.length = 4 := rfl
  have hsize : m.length = 8 + body.length := by
    rw [hf.split, List.length_append, List.length_append, hmagic, buff.size]
    omega
  rcases lt_or_ge c 4 with hlt | hge
  · -- within the magic number
    rw [deserializeRc_eq, afterFirst_short (by rw [List.length_take]; omega)]
  · have hcut : m.take c = magicNumber ++ (buff.items ++ body).take (c - 4) := by
      rw [hf.split, List.take_append, List.take_of_length_le hge, hmagic]
    rcases lt_or_ge c 8 with hlt | hge
    · -- within the header
      have hshort : ((buff.items ++ body).take (c - 4)).length < 4 := by
        rw [List.length_take]
        omega
      rw [hcut, deserializeRc_eq, afterFirst_of_isPrefix (List.prefix_append _ _), List.drop_left]
      exact Reader.bind_error (Reader.readExact_short hshort)
    · -- within the body
      have hbody : (buff.items ++ body).take (c - 4) = buff.items ++ body.take (c - 8) := by
        rw [List.take_append, buff.size, List.take_of_length_le (by rw [buff.size]; omega), Nat.sub_sub]
      rw [hbody] at hcut
      rw [deserializeRc_header (isLeast_front ⟨_, hcut.symm⟩) hcut hf.type]
      refine ((constructCommand_reads h keys buff t).takes _).2 ?_
      rw [List.length_take, ← hf.size]
      omega

/-! ### Streams of frames -/

/-- A command, and the key it is serialized with. -/
structure Serialized where
  cmd : RegisterCommand
  key : List UInt8
  sized : Sized cmd

def Serialized.bytes (h : Hmac) (p : Serialized) : List UInt8 := serializeRc h p.cmd p.key

/-- The message `m` is that of `p`, except for bytes at the positions from 8 on. -/
structure Tampered (h : Hmac) (p : Serialized) (m : List UInt8) : Prop where
  length : m.length = (p.bytes h).length
  header : m.take 8 = (p.bytes h).take 8

theorem fieldsOf_length {cmd : RegisterCommand} (hsized : Sized cmd) :
    (fieldsOf cmd).length + 32 = bodySize (typeOf cmd) := by
  cases cmd with
  | client cmd =>
    obtain ⟨header, _ | data⟩ := cmd
    · simp [fieldsOf, typeOf, bodySize]
    · have hdata : data.data.length = 4096 := hsized
      simp [fieldsOf, typeOf, bodySize, hdata]
  | system cmd =>
    obtain ⟨header, content⟩ := cmd
    cases content with
    | readProc | ack => simp [fieldsOf, typeOf, bodySize, header.msgIdent.size]
    | _ ts wr data =>
      have hdata : data.data.length = 4096 := hsized
      simp [fieldsOf, typeOf, bodySize, header.msgIdent.size, hdata]

/-- Every serialized command is a frame, and stays one when its body is changed. -/
theorem Tampered.frame {p : Serialized} (hm : Tampered h p m) :
    ∃ body, FrameOf (typeOf p.cmd) (headerOf p.cmd) body m := by
  have hbytes : ∃ tag : List UInt8, tag.length = 32 ∧
      p.bytes h = magicNumber ++ (headerOf p.cmd).items ++ (fieldsOf p.cmd ++ tag) := by
    have hkey : keyFor ⟨p.key, p.key⟩ p.cmd = p.key := by cases p.cmd <;> rfl
    refine ⟨_, finalize_length (h := h) (macOf ⟨p.key, p.key⟩ p.cmd), ?_⟩
    rw [List.append_assoc, Serialized.bytes, ← serializeRc_eq, hkey]
  obtain ⟨tag, htag, hbytes⟩ := hbytes
  have hfront : (magicNumber ++ (headerOf p.cmd).items).length = 8 := rfl
  have hheader : m.take 8 = magicNumber ++ (headerOf p.cmd).items := by
    rw [hm.header, hbytes, List.take_left' hfront]
  refine ⟨m.drop 8, ?_, tryFrom_headerOf p.cmd, ?_⟩
  · rw [← List.append_assoc, ← hheader, List.take_append_drop]
  · rw [List.length_drop, hm.length, hbytes, List.length_append, hfront, List.length_append, htag,
      fieldsOf_length p.sized]
    omega

/-- Each result, with what is left of the stream behind its message. -/
def atEnds (rest : List UInt8) : List (RegisterCommand × Bool) → List (List UInt8) →
    List ((RegisterCommand × Bool) × List UInt8)
  | r :: rs, _ :: ms => (r, ms.flatten ++ rest) :: atEnds rest rs ms
  | _, _ => []

/-- The message is read as `r`, wherever it stands. -/
def ReadsAs (h : Hmac) (keys : Keys) (m : List UInt8) (r : RegisterCommand × Bool) : Prop :=
  ∀ rest, deserializeRc h keys (m ++ rest) = .ok (r, rest)

theorem ReadsAs.unique {r r' : RegisterCommand × Bool} (hr : ReadsAs h keys m r) (hr' : ReadsAs h keys m r') :
    r = r' :=
  (Prod.mk.inj (Except.ok.inj ((hr []).symm.trans (hr' [])))).1

variable {ms : List (List UInt8)} {rs rs' : List (RegisterCommand × Bool)} {ps : List Serialized}

theorem deserializeTimes_readsAs (hrs : List.Forall₂ (ReadsAs h keys) ms rs) (rest : List UInt8) :
    deserializeTimes h keys ms.length (ms.flatten ++ rest) = .ok (atEnds rest rs ms) := by
  induction hrs with
  | nil => rfl
  | @cons m r ms rs hr _ ih =>
    rw [List.length_cons, deserializeTimes, List.flatten_cons, List.append_assoc, hr]
    simp only [bind, Except.bind, ih]
    rfl

/-- The messages of a stream whose bodies have been changed. -/
theorem readsAs_of_tampered (keys : Keys) (hms : List.Forall₂ (Tampered h) ps ms) :
    ∃ rs, List.Forall₂ (ReadsAs h keys) ms rs ∧ rs.map (fun r => typeOf r.1) = ps.map fun p => typeOf p.cmd := by
  induction hms with
  | nil => exact ⟨[], .nil, rfl⟩
  | @cons p m ps ms hm _ ih =>
    obtain ⟨body, hf⟩ := hm.frame
    obtain ⟨r, htype, hr⟩ := hf.read h keys
    obtain ⟨rs, hrs, htypes⟩ := ih
    exact ⟨r :: rs, .cons hr hrs, by simp [htype, htypes]⟩

theorem atEnds_length (hlen : rs.length = ms.length) {ms' : List (List UInt8)}
    (hlen' : rs'.length = ms'.length) (hsame : ms'.map List.length = ms.map List.length) (rest : List UInt8) :
    (atEnds rest rs' ms').map (fun r => r.2.length) = (atEnds rest rs ms).map (fun r => r.2.length) := by
  induction ms generalizing rs rs' ms' with
  | nil =>
    obtain rfl : ms' = [] := by simpa using hsame
    cases rs <;> cases rs' <;> rfl
  | cons m ms ih =>
    cases ms' with
    | nil => simp at hsame
    | cons m' ms' =>
      cases rs with
      | nil => simp at hlen
      | cons r rs =>
        cases rs' with
        | nil => simp at hlen'
        | cons r' rs' =>
          simp only [List.map_cons, List.cons.injEq] at hsame
          simp only [List.length_cons, Nat.add_right_cancel_iff] at hlen hlen'
          have hflat : ms'.flatten.length = ms.flatten.length := by
            rw [List.length_flatten, List.length_flatten, hsame.2]
          simp only [atEnds, List.map_cons, List.length_append, hflat, ih hlen hlen' hsame.2]

theorem forall₂_getElem? {α β : Type} {R : α → β → Prop} {l : List α} {l' : List β} {k : ℕ} {a : α}
    (hl : List.Forall₂ R l l') (ha : l[k]? = some a) : ∃ b, l'[k]? = some b ∧ R a b := by
  obtain ⟨hk, rfl⟩ := List.getElem?_eq_some_iff.mp ha
  have hk' : k < l'.length := hl.length_eq ▸ hk
  exact ⟨l'[k], List.getElem?_eq_getElem hk', hl.get hk hk'⟩

/-- The messages keep their lengths. -/
theorem lengths_of_tampered {h : Hmac} {ps : List Serialized} {ms : List (List UInt8)}
    (hms : List.Forall₂ (Tampered h) ps ms) :
    ms.map List.length = (ps.map (Serialized.bytes h)).map List.length := by
  induction hms with
  | nil => rfl
  | cons hm _ ih => simpa [hm.length] using ih

/-- CORRECT (framing does not depend on bodies): change any bytes at positions from 8 on of any messages of a
    stream of serialized commands. As many commands of the same kinds are read at the same offsets, and the
    messages that are unchanged are read as before; where the stream is cut within a message, those before
    it are read, and then there is an error. -/
theorem framing_of_bodies (h : Hmac) (keys : Keys) (ps : List Serialized) (ms : List (List UInt8))
    (hms : List.Forall₂ (Tampered h) ps ms) (rest : List UInt8) :
    ∃ rs rs', deserializeTimes h keys ps.length ((ps.map (Serialized.bytes h)).flatten ++ rest) =
        .ok (atEnds rest rs (ps.map (Serialized.bytes h))) ∧
      deserializeTimes h keys ps.length (ms.flatten ++ rest) = .ok (atEnds rest rs' ms) ∧
      rs.length = ps.length ∧ rs'.length = ps.length ∧
      rs'.map (fun r => typeOf r.1) = rs.map (fun r => typeOf r.1) ∧
      (atEnds rest rs' ms).map (fun r => r.2.length) =
        (atEnds rest rs (ps.map (Serialized.bytes h))).map (fun r => r.2.length) ∧
      (∀ (k : ℕ) (p : Serialized), ps[k]? = some p → ms[k]? = some (p.bytes h) → rs'[k]? = rs[k]?) ∧
      ∀ (k : ℕ) (m : List UInt8) (c : ℕ), ms[k]? = some m → c < m.length →
        deserializeTimes h keys k ((ms.take k).flatten ++ m.take c) =
          .ok (atEnds (m.take c) (rs'.take k) (ms.take k)) ∧
        deserializeRc h keys (m.take c) = .error .unexpectedEof := by
  have hself : List.Forall₂ (Tampered h) ps (ps.map (Serialized.bytes h)) :=
    List.forall₂_map_right_iff.mpr (List.forall₂_same.mpr fun _ _ => ⟨rfl, rfl⟩)
  obtain ⟨rs, hrs, htypes⟩ := readsAs_of_tampered keys hself
  obtain ⟨rs', hrs', htypes'⟩ := readsAs_of_tampered keys hms
  have hlength : ps.length = ms.length := hms.length_eq
  refine ⟨rs, rs', ?_, ?_, ?_, ?_, ?_, ?_, ?_, ?_⟩
  · have hread := deserializeTimes_readsAs hrs rest
    rwa [List.length_map] at hread
  · rw [hlength]
    exact deserializeTimes_readsAs hrs' rest
  · rw [← hrs.length_eq, List.length_map]
  · rw [← hrs'.length_eq, hlength]
  · rw [htypes, htypes']
  · exact atEnds_length hrs.length_eq.symm hrs'.length_eq.symm (lengths_of_tampered hms) rest
  · intro k p hp hm
    obtain ⟨r, hr, hread⟩ := forall₂_getElem? hrs (by rw [List.getElem?_map, hp, Option.map_some])
    obtain ⟨r', hr', hread'⟩ := forall₂_getElem? hrs' hm
    rw [hr, hr', hread.unique hread']
  · intro k m c hm hlt
    obtain ⟨hk, -⟩ := List.getElem?_eq_some_iff.mp hm
    constructor
    · have hread := deserializeTimes_readsAs (List.forall₂_take k hrs') (m.take c)
      rwa [List.length_take_of_le hk.le] at hread
    · obtain ⟨p, hp⟩ : ∃ p, ps[k]? = some p := ⟨_, List.getElem?_eq_getElem (hlength ▸ hk)⟩
      obtain ⟨m', hm', htampered⟩ := forall₂_getElem? hms hp
      obtain rfl : m = m' := Option.some.inj (hm.symm.trans hm')
      obtain ⟨body, hf⟩ := htampered.frame
      exact hf.cut h keys hlt

/-- A READ and an ACK. -/
def readThenAck : List Serialized :=
  [⟨readCommand, [2], trivial⟩, ⟨.system ⟨⟨1, uuid 3, 0⟩, .ack⟩, [1], trivial⟩]

/-- The same, with magic numbers all over the body of the READ. -/
def magicThenAck : List (List UInt8) :=
  [magicNumber ++ [0, 0, 0, 1] ++ (List.replicate 12 magicNumber).flatten,
    serializeRc sumHmac (.system ⟨⟨1, uuid 3, 0⟩, .ack⟩) [1]]

/-- The ACK is read as before. -/
theorem magicThenAck_framed : ∃ rs rs',
    deserializeTimes sumHmac ⟨[1], [2]⟩ 2 (magicThenAck.flatten ++ []) = .ok (atEnds [] rs' magicThenAck) ∧
    deserializeTimes sumHmac ⟨[1], [2]⟩ 2 ((readThenAck.map (Serialized.bytes sumHmac)).flatten ++ []) =
      .ok (atEnds [] rs (readThenAck.map (Serialized.bytes sumHmac))) ∧ rs'[1]? = rs[1]? := by
  have hms : List.Forall₂ (Tampered sumHmac) readThenAck magicThenAck :=
    .cons ⟨by decide +kernel, by decide +kernel⟩ (.cons ⟨rfl, rfl⟩ .nil)
  obtain ⟨rs, rs', hread, hread', -, -, -, -, hsame, -⟩ :=
    framing_of_bodies sumHmac ⟨[1], [2]⟩ readThenAck magicThenAck hms []
  exact ⟨rs, rs', hread', hread, hsame 1 _ rfl rfl⟩

end AtomicDisk.Transfer
