import AtomicDisk.Transfer.Malformed

/-! Streams as sequences of messages. `deserialize_rc` stays in frame: what it takes from the stream decides
    what it returns, whatever comes after, so a message can be cut out of a stream without changing how
    the others are read.

        │ m₁ │ m₂, bad tag │ m₃ │ m₄, bad tag │ tail          read as m₁ m₂ m₃ m₄
        │ m₁ │ m₃ │ tail                       purged         read as m₁ m₃ -/

namespace AtomicDisk.Transfer
open Schemes

variable {h : Hmac} {keys : Keys} {stream rest : List UInt8} {m : RegisterCommand × Bool}

/-! ### Frames -/

theorem framed_slideToMagicNumber (window : Block UInt8 4) : Reader.Framed (slideToMagicNumber window) := by
  intro s a rest hs
  unfold slideToMagicNumber at hs
  split at hs
  · rename_i stream hslide
    obtain ⟨-, rfl⟩ := Prod.mk.inj (Except.ok.inj hs)
    obtain ⟨frame, rfl, hframe⟩ := slide_framed hslide
    refine ⟨frame, rfl, fun t => ?_⟩
    rw [slideToMagicNumber, hframe]
  · cases hs

/-- `deserialize_rc` stays in frame. -/
theorem deserializeRc_framed (h : Hmac) (keys : Keys) : Reader.Framed (deserializeRc h keys) := by
  refine .bind (.readExact _ 4) fun _ => .bind (framed_slideToMagicNumber _) fun _ => ?_
  refine .bind (.readExact _ 4) fun buff => ?_
  cases MessageType.tryFrom (buff.get 3) with
  | ok t => exact (constructCommand_reads h keys buff t).framed
  | error e => exact .throw _

/-- A message is not empty. -/
theorem deserializeRc_shorter (hs : deserializeRc h keys stream = .ok (m, rest)) :
    rest.length < stream.length := by
  obtain ⟨frame, rfl, hframe⟩ := deserializeRc_framed h keys _ _ _ hs
  cases frame with
  | nil =>
    have hshort : (readExact 4 : CommandReader _) [] = .error .unexpectedEof :=
      Reader.readExact_short (by decide)
    have hnil := hframe []
    rw [List.append_nil, deserializeRc, Reader.bind_error hshort] at hnil
    cases hnil
  | cons b frame =>
    simp only [List.length_append, List.length_cons]
    omega

/-! ### What is read has 4096 bytes for each sector -/

theorem constructClientCommand_sized (h : Hmac) (mac : Mac) (t : MessageType) :
    Reader.Yields (fun m => Sized m.1) (constructClientCommand h mac t) := by
  refine .bind (.any _) fun _ _ => .bind (.any _) fun _ _ => ?_
  cases t with
  | read =>
    exact .bind (P := fun x : _ × Mac => ∀ header, Sized (.client ⟨header, x.1⟩)) (.pure fun _ => trivial)
      fun x hx => .bind (.any _) fun _ _ => .pure (hx _)
  | write =>
    refine .bind (.any _) fun data _ => ?_
    exact .bind (P := fun x : _ × Mac => ∀ header, Sized (.client ⟨header, x.1⟩)) (.pure fun _ => data.size)
      fun x hx => .bind (.any _) fun _ _ => .pure (hx _)
  | _ => exact .bind (P := fun _ => False) (.throw _) fun _ hx => hx.elim

theorem constructSystemCommand_sized (h : Hmac) (mac : Mac) (rank : UInt8) (t : MessageType) :
    Reader.Yields (fun m => Sized m.1) (constructSystemCommand h mac rank t) := by
  refine .bind (.any _) fun _ _ => .bind (.any _) fun _ _ => .bind (.any _) fun _ _ => ?_
  cases t with
  | readProc | ack =>
    exact .bind (P := fun x => ∀ header, Sized (.system ⟨header, x⟩)) (.pure fun _ => trivial)
      fun x hx => .pure (hx _)
  | _ => exact .bind (P := fun _ => False) (.throw _) fun _ hx => hx.elim

theorem constructAdvancedSystemCommand_sized (h : Hmac) (mac : Mac) (rank : UInt8) (t : MessageType) :
    Reader.Yields (fun m => Sized m.1) (constructAdvancedSystemCommand h mac rank t) := by
  refine .bind (.any _) fun _ _ => .bind (.any _) fun _ _ => .bind (.any _) fun _ _ => ?_
  refine .bind (.any _) fun _ _ => .bind (.any _) fun data _ => .bind (.any _) fun _ _ => ?_
  cases t with
  | value | writeProc =>
    exact .bind (P := fun x => ∀ header, Sized (.system ⟨header, x⟩)) (.pure fun _ => data.size)
      fun x hx => .pure (hx _)
  | _ => exact .bind (P := fun _ => False) (.throw _) fun _ hx => hx.elim

theorem constructCommand_sized (h : Hmac) (keys : Keys) (buff : Block UInt8 4) (t : MessageType) :
    Reader.Yields (fun m => Sized m.1) (constructCommand h keys buff t) := by
  unfold constructCommand
  cases t with
  | read | write => exact constructClientCommand_sized _ _ _
  | readProc | ack => exact constructSystemCommand_sized _ _ _ _
  | value | writeProc => exact constructAdvancedSystemCommand_sized _ _ _ _

/-- What `deserialize_rc` returns carries sectors of 4096 bytes only. -/
theorem deserializeRc_sized (h : Hmac) (keys : Keys) :
    Reader.Yields (fun m => Sized m.1) (deserializeRc h keys) := by
  refine .bind (.any _) fun _ _ => .bind (.any _) fun _ _ => .bind (.any _) fun buff _ => ?_
  cases MessageType.tryFrom (buff.get 3) with
  | error e => exact .throw _
  | ok t => exact constructCommand_sized h keys buff t

/-! ### The messages of a stream -/

/-- The stream is read as these messages, and then `rest` is left. -/
def Decodes (h : Hmac) (keys : Keys) :
    List UInt8 → List (RegisterCommand × Bool) → List UInt8 → Prop
  | stream, [], rest => stream = rest
  | stream, m :: ms, rest => ∃ stream', deserializeRc h keys stream = .ok (m, stream') ∧
      Decodes h keys stream' ms rest

theorem Decodes.append {ms ms' : List (RegisterCommand × Bool)} {rest' : List UInt8}
    (hd : Decodes h keys stream ms rest) (hd' : Decodes h keys rest ms' rest') :
    Decodes h keys stream (ms ++ ms') rest' := by
  induction ms generalizing stream with
  | nil =>
    obtain rfl : stream = rest := hd
    exact hd'
  | cons m ms ih =>
    obtain ⟨stream', hfirst, hd⟩ := hd
    exact ⟨stream', hfirst, ih hd⟩

/-- Every header of the stream has a valid message type, and every system command with a valid tag is for
    one of the `nSectors` sectors. -/
structure Proper (h : Hmac) (keys : Keys) (nSectors : UInt64) (stream : List UInt8) : Prop where
  header : ∀ ms rest, Decodes h keys stream ms rest → FirstHeaderValid rest
  sector : ∀ ms rest, Decodes h keys stream ms rest → ∀ cmd, (.system cmd, true) ∈ ms →
    cmd.header.sectorIdx < nSectors

theorem Proper.tail {nSectors : UInt64} (hp : Proper h keys nSectors stream)
    (hs : deserializeRc h keys stream = .ok (m, rest)) : Proper h keys nSectors rest := by
  constructor
  · intro ms rest' hd
    exact hp.header (m :: ms) rest' ⟨rest, hs, hd⟩
  · intro ms rest' hd cmd hmem
    exact hp.sector (m :: ms) rest' ⟨rest, hs, hd⟩ cmd (List.mem_cons_of_mem _ hmem)

/-- What `deserialize_rc` does with a stream: it ends before the type, or a header is found. -/
theorem deserializeRc_cases (h : Hmac) (keys : Keys) (stream : List UInt8) :
    (deserializeRc h keys stream = .error .unexpectedEof) ∨
      ∃ (buff : Block UInt8 4) (body : List UInt8),
        (FirstHeaderValid stream ↔ ValidType (buff.get 3)) ∧
        deserializeRc h keys stream = (match MessageType.tryFrom (buff.get 3) with
          | .ok msgType => constructCommand h keys buff msgType
          | .error _ => throw .panic : CommandReader _) body := by
  rw [deserializeRc_eq]
  cases hfirst : afterFirst magicNumber stream with
  | none => exact Or.inl rfl
  | some body =>
    rcases header_cases body with hlt | ⟨buff, body, rfl⟩
    · have hcut : (readExact 4 : CommandReader _) body = .error .unexpectedEof :=
        Reader.readExact_short hlt
      exact Or.inl (Reader.bind_error hcut)
    · exact Or.inr ⟨buff, body, firstHeaderValid_iff hfirst,
        Reader.bind_ok (readExact_front _ _ buff.size)⟩

/-- With valid headers, reading fails only because the stream ends. -/
theorem deserializeRc_error {fault : Fault} (hvalid : FirstHeaderValid stream)
    (herr : deserializeRc h keys stream = .error fault) : fault = .unexpectedEof := by
  rcases deserializeRc_cases h keys stream with heof | ⟨buff, body, hiff, heq⟩
  · exact Except.error.inj (herr.symm.trans heof)
  · rw [heq] at herr
    cases ht : MessageType.tryFrom (buff.get 3) with
    | ok t =>
      rw [ht] at herr
      exact (constructCommand_reads h keys buff t).takes.failsOnly body fault herr
    | error e => exact absurd (hiff.mp hvalid) (not_validType_of_error ht)

/-- A stream that can be read begins with a valid header. -/
theorem firstHeaderValid_of_ok (hs : deserializeRc h keys stream = .ok (m, rest)) :
    FirstHeaderValid stream := by
  rcases deserializeRc_cases h keys stream with heof | ⟨buff, body, hiff, heq⟩
  · rw [heof] at hs
    cases hs
  · rw [heq] at hs
    cases ht : MessageType.tryFrom (buff.get 3) with
    | ok t => exact hiff.mpr (validType_of_ok ht)
    | error e =>
      rw [ht] at hs
      cases hs

/-- A proper stream, put together from the back. -/
theorem Proper.nil {nSectors : UInt64} : Proper h keys nSectors [] := by
  have hend : ∀ {ms rest}, Decodes h keys [] ms rest → ms = [] ∧ rest = [] := by
    intro ms rest hd
    cases ms with
    | nil => exact ⟨rfl, Eq.symm hd⟩
    | cons m ms =>
      obtain ⟨rest', hs, -⟩ := hd
      exact absurd (deserializeRc_shorter hs) (Nat.not_lt_zero _)
  constructor
  · intro ms rest hd
    obtain ⟨-, rfl⟩ := hend hd
    intro rest hfirst
    cases hfirst
  · intro ms rest hd cmd hmem
    obtain ⟨rfl, -⟩ := hend hd
    cases hmem

theorem Proper.cons {nSectors : UInt64} (hs : deserializeRc h keys stream = .ok (m, rest))
    (hsector : ∀ cmd, (.system cmd, true) = m → cmd.header.sectorIdx < nSectors)
    (hp : Proper h keys nSectors rest) : Proper h keys nSectors stream := by
  have hfirst : ∀ {m' ms rest'}, Decodes h keys stream (m' :: ms) rest' →
      m' = m ∧ Decodes h keys rest ms rest' := by
    rintro m' ms rest' ⟨stream', hs', hd⟩
    obtain ⟨rfl, rfl⟩ := Prod.mk.inj (Except.ok.inj (hs'.symm.trans hs))
    exact ⟨rfl, hd⟩
  constructor
  · intro ms rest' hd
    cases ms with
    | nil =>
      obtain rfl : stream = rest' := hd
      exact firstHeaderValid_of_ok hs
    | cons m' ms => exact hp.header ms rest' (hfirst hd).2
  · intro ms rest' hd cmd hmem
    cases ms with
    | nil => cases hmem
    | cons m' ms =>
      obtain ⟨rfl, hd⟩ := hfirst hd
      rcases List.mem_cons.mp hmem with heq | hmem
      · exact hsector cmd heq
      · exact hp.sector ms rest' hd cmd hmem

/-! ### Without the messages that have a bad tag -/

/-- The stream without the messages that have a bad tag, each together with the bytes that are skipped in
    front of it. Without these bytes there is nothing that could make up a header with what follows. -/
def purge (h : Hmac) (keys : Keys) (stream : List UInt8) : List UInt8 :=
  match hs : deserializeRc h keys stream with
  | .ok ((_, ok), rest) =>
    have : rest.length < stream.length := deserializeRc_shorter hs
    if ok = true then stream.take (stream.length - rest.length) ++ purge h keys rest
    else purge h keys rest
  | .error _ => stream
  termination_by stream.length

theorem purge_error {fault : Fault} (hs : deserializeRc h keys stream = .error fault) :
    purge h keys stream = stream := by
  rw [purge]
  split
  · rename_i hs'
    rw [hs] at hs'
    cases hs'
  · rfl

theorem purge_bad {cmd : RegisterCommand} (hs : deserializeRc h keys stream = .ok ((cmd, false), rest)) :
    purge h keys stream = purge h keys rest := by
  rw [purge]
  split
  · rename_i cmd' ok rest' hs'
    rw [hs] at hs'
    obtain ⟨⟨rfl, rfl⟩, rfl⟩ : (cmd = cmd' ∧ false = ok) ∧ rest = rest' := by simpa using hs'
    simp
  · rename_i hs'
    rw [hs] at hs'
    cases hs'

/-- A message with a valid tag is read from the purged stream as well. -/
theorem purge_good {cmd : RegisterCommand} (hs : deserializeRc h keys stream = .ok ((cmd, true), rest)) :
    deserializeRc h keys (purge h keys stream) = .ok ((cmd, true), purge h keys rest) := by
  obtain ⟨frame, rfl, hframe⟩ := deserializeRc_framed h keys _ _ _ hs
  rw [purge]
  split
  · rename_i cmd' ok rest' hs'
    rw [hs] at hs'
    obtain ⟨⟨rfl, rfl⟩, rfl⟩ : (cmd = cmd' ∧ true = ok) ∧ rest = rest' := by simpa using hs'
    simp only [if_true, List.length_append, Nat.add_sub_cancel, List.take_left]
    exact hframe _
  · rename_i hs'
    rw [hs] at hs'
    cases hs'

/-- What is read from the purged stream is what is read from the stream, without the bad messages. -/
theorem decodes_purge {ms : List (RegisterCommand × Bool)} {rest' : List UInt8}
    (hd : Decodes h keys (purge h keys stream) ms rest') :
    ∃ ms' rest, Decodes h keys stream ms' rest ∧ purge h keys rest = rest' ∧ ms'.filter Prod.snd = ms := by
  induction hn : stream.length using Nat.strong_induction_on generalizing stream ms with
  | _ n ih =>
    cases ms with
    | nil => exact ⟨[], stream, rfl, hd, rfl⟩
    | cons m ms =>
      obtain ⟨stream', hfirst, hd'⟩ := hd
      cases hs : deserializeRc h keys stream with
      | error fault =>
        rw [purge_error hs, hs] at hfirst
        cases hfirst
      | ok r =>
        obtain ⟨⟨cmd, ok⟩, rest⟩ := r
        have hlt : rest.length < n := hn ▸ deserializeRc_shorter hs
        cases ok with
        | false =>
          rw [purge_bad hs] at hfirst
          have hd₂ : Decodes h keys (purge h keys rest) (m :: ms) rest' := ⟨stream', hfirst, hd'⟩
          obtain ⟨ms', rest₂, hms', hrest, hfilter⟩ := ih rest.length hlt hd₂ rfl
          exact ⟨(cmd, false) :: ms', rest₂, ⟨rest, hs, hms'⟩, hrest, hfilter⟩
        | true =>
          rw [purge_good hs] at hfirst
          obtain ⟨rfl, rfl⟩ : (cmd, true) = m ∧ purge h keys rest = stream' := by simpa using hfirst
          obtain ⟨ms', rest₂, hms', hrest, hfilter⟩ := ih rest.length hlt hd' rfl
          refine ⟨(cmd, true) :: ms', rest₂, ⟨rest, hs, hms'⟩, hrest, ?_⟩
          rw [List.filter_cons_of_pos rfl, hfilter]

theorem Proper.decodes {nSectors : UInt64} {ms : List (RegisterCommand × Bool)}
    (hp : Proper h keys nSectors stream) (hd : Decodes h keys stream ms rest) :
    Proper h keys nSectors rest := by
  induction ms generalizing stream with
  | nil =>
    obtain rfl : stream = rest := hd
    exact hp
  | cons m ms ih =>
    obtain ⟨stream', hs, hd⟩ := hd
    exact ih (hp.tail hs) hd

/-- The first header of the purged stream is one of the stream. -/
theorem Proper.header_purge {nSectors : UInt64} (hp : Proper h keys nSectors stream) :
    FirstHeaderValid (purge h keys stream) := by
  induction hn : stream.length using Nat.strong_induction_on generalizing stream with
  | _ n ih =>
    cases hs : deserializeRc h keys stream with
    | error fault =>
      rw [purge_error hs]
      exact hp.header [] stream rfl
    | ok r =>
      obtain ⟨⟨cmd, ok⟩, rest⟩ := r
      cases ok with
      | false =>
        rw [purge_bad hs]
        exact ih rest.length (hn ▸ deserializeRc_shorter hs) (hp.tail hs) rfl
      | true => exact firstHeaderValid_of_ok (purge_good hs)

theorem Proper.purge {nSectors : UInt64} (hp : Proper h keys nSectors stream) :
    Proper h keys nSectors (purge h keys stream) := by
  constructor
  · intro ms rest' hd
    obtain ⟨ms', rest, hd', rfl, -⟩ := decodes_purge hd
    exact (hp.decodes hd').header_purge
  · intro ms rest' hd cmd hmem
    obtain ⟨ms', rest, hd', -, rfl⟩ := decodes_purge hd
    exact hp.sector ms' rest hd' cmd (List.mem_of_mem_filter hmem)

end AtomicDisk.Transfer
