import AtomicDisk.Driver.Connection
import AtomicDisk.Driver.Relaying
import AtomicDisk.Transfer.Framing

/-! What goes out on the connections of a client, over whole runs. A connection carries the frames of the commands
    that were sent on it; only on a connection that has been released can there be a part of one more:

        former    │ frame │ frame │ frame │ fra        tcp_send has failed
        former    │ frame │
        out       │ frame │ frame │ frame │            atdd_send_command has returned 0 for each

    So a process reads exactly the commands, whatever part of the bytes arrives, and however `kernel_sendmsg` has
    taken them. -/

namespace AtomicDisk.Driver
open Schemes Transfer Connection

/-! ### Streams of frames -/

section frames

variable {h : Hmac} {keys : Keys} {s m : List UInt8} {cmd : RegisterCommand} {cmds : List RegisterCommand}

/-- A process reads these commands, all with a valid tag, and then the stream ends. -/
def ReadsExactly (h : Hmac) (keys : Keys) (s : List UInt8) (cmds : List RegisterCommand) : Prop :=
  (deserializeTimes h keys cmds.length s).map (List.map Prod.fst) = .ok (cmds.map fun cmd => (cmd, true)) ∧
    deserializeTimes h keys (cmds.length + 1) s = .error .unexpectedEof

theorem ReadsExactly.nil (hs : deserializeRc h keys s = .error .unexpectedEof) : ReadsExactly h keys s [] := by
  refine ⟨rfl, ?_⟩
  rw [List.length_nil, deserializeTimes, hs]
  rfl

theorem ReadsExactly.cons (hm : ReadsAs h keys m (cmd, true)) (hs : ReadsExactly h keys s cmds) :
    ReadsExactly h keys (m ++ s) (cmd :: cmds) := by
  obtain ⟨hread, hend⟩ := hs
  refine ⟨?_, ?_⟩
  · rw [List.length_cons, deserializeTimes, hm s]
    cases hrest : deserializeTimes h keys cmds.length s with
    | error e =>
      rw [hrest] at hread
      cases hread
    | ok results =>
      rw [hrest] at hread
      have hresults : results.map Prod.fst = cmds.map fun cmd => (cmd, true) := Except.ok.inj hread
      simp only [bind, Except.bind, hrest, pure, Except.pure, Except.map, List.map_cons, hresults]
  · rw [List.length_cons, deserializeTimes, hm s]
    simp only [bind, Except.bind, hend]

/-- The bytes are read as one command, and a part of them is not. -/
structure Whole (h : Hmac) (keys : Keys) (m : List UInt8) (cmd : RegisterCommand) : Prop where
  reads : ReadsAs h keys m (cmd, true)
  cut : ∀ k < m.length, deserializeRc h keys (m.take k) = .error .unexpectedEof

variable {α : Type} {frame : α → List UInt8} {command : α → RegisterCommand}

/-- What has arrived of frames and a part of one is read as the commands that are there as a whole. -/
theorem readsExactly_frames (hwhole : ∀ a, Whole h keys (frame a) (command a)) {a : α} {i : ℕ}
    (hi : i < (frame a).length) : ∀ (l : List α) (k : ℕ), ∃ n,
    ReadsExactly h keys ((l.flatMap frame ++ (frame a).take i).take k) ((l.map command).take n) ∧
      ((l.flatMap frame ++ (frame a).take i).length ≤ k → l.length ≤ n)
  | [], k => by
    refine ⟨0, ReadsExactly.nil ?_, fun _ => le_rfl⟩
    rw [List.flatMap_nil, List.nil_append, List.take_take]
    exact (hwhole a).cut _ (lt_of_le_of_lt (min_le_right ..) hi)
  | b :: l, k => by
    rw [List.flatMap_cons, List.append_assoc]
    rcases lt_or_ge k (frame b).length with hlt | hge
    · refine ⟨0, ReadsExactly.nil ?_, fun hall => ?_⟩
      · rw [List.take_append_of_le_length hlt.le]
        exact (hwhole b).cut k hlt
      · rw [List.length_append] at hall
        omega
    · obtain ⟨n, hn, hall⟩ := readsExactly_frames hwhole hi l (k - (frame b).length)
      refine ⟨n + 1, ?_, fun hk => ?_⟩
      · rw [List.take_append, List.take_of_length_le hge, List.map_cons, List.take_succ_cons]
        exact .cons (hwhole b).reads hn
      · rw [List.length_append] at hk
        have hle := hall (by omega)
        rw [List.length_cons]
        omega

end frames

/-! ### The frame of a request -/

theorem requestFrame_whole (h : Hmac) (systemKey key : List UInt8) (b₄ b₅ b₆ : UInt8) (p : Request × UInt64) :
    Whole h ⟨systemKey, key⟩ (requestFrame h key (magicNumber ++ [b₄, b₅, b₆]) p)
      (.client (commandOf p.1 p.2)) := by
  obtain ⟨rq, ident⟩ := p
  have hread : deserializeRc h ⟨systemKey, key⟩ (requestFrame h key (magicNumber ++ [b₄, b₅, b₆]) (rq, ident)) =
      .ok ((.client (commandOf rq ident), true), []) := deserializeRc_content b₄ b₅ b₆ rq ident
  obtain ⟨frame, hsplit, hframe⟩ := deserializeRc_framed _ _ _ _ _ hread
  rw [List.append_nil] at hsplit
  refine ⟨?_, fun k hk => ?_⟩
  · rw [hsplit]
    exact hframe
  · have hof : FrameOf (typeOf (.client (commandOf rq ident))) ⟨[b₄, b₅, b₆, typeByte rq], rfl⟩
        (fields rq ident ++ h.tag key (content (magicNumber ++ [b₄, b₅, b₆]) rq ident))
        (requestFrame h key (magicNumber ++ [b₄, b₅, b₆]) (rq, ident)) := by
      refine ⟨by simp [requestFrame, content], ?_, ?_⟩
      · rw [← tryFrom_toU8, toU8_commandOf]
        rfl
      · rw [List.length_append, h.size, ← fieldsOf_commandOf, fieldsOf_length commandOf_sized]
    exact hof.cut h ⟨systemKey, key⟩ hk

/-- Reading does not touch what is sent. -/
theorem Fetched.sends {c c' : AtddTcpClient} {res : Except Errno (Option AtddCmdReturn)} (h : Fetched c res c') :
    c'.hmacKey = c.hmacKey ∧ c'.sendBuf = c.sendBuf := by
  cases h with
  | none => exact ⟨rfl, rfl⟩
  | error _ _ _ hreads => exact ⟨hreads.key, hreads.sendBuf⟩
  | response _ _ _ hreads => exact ⟨hreads.key, hreads.sendBuf⟩

/-! ### What the connections carry -/

namespace Connection

variable {c c₁ c' c₀ : Connection} {net : Net} {h : Hmac} {key start : List UInt8} {rq : Request} {ident : UInt64}
  {outcome : SendOutcome} {e : Event} {o : Option SendOutcome} {tr : Trace}

/-- All connections that have been made. -/
def connections (c : Connection) : List Outgoing := c.former ++ if c.connected = true then [c.out] else []

/-- The commands that have been sent, on whatever connection. -/
def sentOn (c : Connection) : List (Request × UInt64) := (connections c).flatMap Outgoing.commands

theorem sentOn_up (hup : c.connected = true) : sentOn c = c.former.flatMap Outgoing.commands ++ c.out.commands := by
  simp [sentOn, connections, hup]

theorem sentOn_down (hdown : c.connected = false) : sentOn c = c.former.flatMap Outgoing.commands := by
  simp [sentOn, connections, hdown]

theorem forall_connections {p : Outgoing → Prop} :
    (∀ o ∈ connections c, p o) ↔ (∀ o ∈ c.former, p o) ∧ (c.connected = true → p c.out) := by
  cases hup : c.connected <;> simp [connections, hup, or_imp, forall_and]

/-- The command that `atdd_send_command` returns 0 for in a step. -/
def sentBy (x : Entry Connection Event (Option SendOutcome)) : Option (Request × UInt64) :=
  match x.event, x.out with
  | .command rq ident _, some .sent => some (rq, ident)
  | _, _ => none

/-- Frames, and a part of one on connections that have been released. -/
structure Carrying (h : Hmac) (key start : List UInt8) (c : Connection) : Prop where
  signs : c.client.hmacKey = key
  starts : c.client.sendBuf.front sendBufPosStart = start
  current : c.connected = true → c.out.bytes = c.out.commands.flatMap (requestFrame h key start)
  former : ∀ o ∈ c.former, ∃ p k, k < (requestFrame h key start p).length ∧
    o.bytes = o.commands.flatMap (requestFrame h key start) ++ (requestFrame h key start p).take k

/-- A request leaves the key and the first seven bytes. -/
theorem prepareCmdContent_start {c c' : AtddTcpClient} (hprepare : prepareCmdContent h c rq ident = some c') :
    c'.hmacKey = c.hmacKey ∧ c'.sendBuf.front sendBufPosStart = c.sendBuf.front sendBufPosStart := by
  obtain ⟨c₁, hprepare₁, hkey, hfilled⟩ := prepareCmdContent_filled h c rq ident
  obtain rfl : c₁ = c' := Option.some.inj (hprepare₁.symm.trans hprepare)
  rw [content, List.append_assoc] at hfilled
  exact ⟨hkey, hfilled.untouched (c.sendBuf.front_length (by decide))⟩

theorem Reached.carrying (hr : Reached net c c₁) (hc : Carrying h key start c) :
    Carrying h key start c₁ ∧ sentOn c₁ = sentOn c := by
  cases hr with
  | there hup => exact ⟨hc, rfl⟩
  | made p hdown hfirst =>
    refine ⟨⟨hc.signs, hc.starts, fun _ => rfl, hc.former⟩, ?_⟩
    rw [sentOn_down hdown, sentOn_up rfl]
    exact List.append_nil _

theorem Sends.carrying (hs : Sends h net c rq ident outcome c') (hc : Carrying h key start c) :
    Carrying h key start c' ∧ sentOn c' = sentOn c ++ if outcome = .sent then [(rq, ident)] else [] := by
  have hprepared : ∀ client, prepareCmdContent h c.client rq ident = some client →
      Carrying h key start { c with client } := by
    intro client hclient
    obtain ⟨hkey, hstart⟩ := prepareCmdContent_start hclient
    exact ⟨hkey.trans hc.signs, hstart.trans hc.starts, hc.current, hc.former⟩
  -- on a connection, what has been sent before is what was sent on the former ones and on this one
  have hreach : ∀ client c₁, prepareCmdContent h c.client rq ident = some client →
      Reached net { c with client } c₁ → Carrying h key start c₁ ∧ c₁.connected = true ∧
        sentOn c = c₁.former.flatMap Outgoing.commands ++ c₁.out.commands := by
    intro client c₁ hclient hreached
    obtain ⟨hc₁, hsent⟩ := hreached.carrying (hprepared client hclient)
    exact ⟨hc₁, hreached.client.1, hsent.symm.trans (sentOn_up hreached.client.1)⟩
  cases hs with
  | unconnected client target hclient hdown hnone =>
    have hc' := hprepared client hclient
    exact ⟨⟨hc'.signs, hc'.starts, hc'.current, hc'.former⟩, by simp [sentOn, connections]⟩
  | sent client c₁ hclient hreached =>
    obtain ⟨hc₁, hup, hold⟩ := hreach client c₁ hclient hreached
    refine ⟨⟨hc₁.signs, hc₁.starts, fun _ => ?_, hc₁.former⟩, ?_⟩
    · simp [hc₁.current hup, hc.signs, hc.starts]
    · rw [hold, if_pos rfl, List.append_assoc]
      refine sentOn_up ?_
      exact hup
  | broken client c₁ k hclient hreached hk =>
    obtain ⟨hc₁, hup, hold⟩ := hreach client c₁ hclient hreached
    rw [hc.signs, hc.starts] at hk
    refine ⟨⟨hc₁.signs, hc₁.starts, by simp [disconnect], fun o ho => ?_⟩, ?_⟩
    · rcases List.mem_append.mp ho with ho | ho
      · exact hc₁.former o ho
      · refine ⟨(rq, ident), k, hk, ?_⟩
        simp [List.mem_singleton.mp ho, hc₁.current hup, hc.signs, hc.starts]
    · rw [hold, sentOn_down rfl, if_neg (by simp), List.append_nil, disconnect, List.flatMap_append,
        List.flatMap_singleton]

theorem step_carrying (hs : step h c e = some (c', o)) (hc : Carrying h key start c) :
    Carrying h key start c' ∧ sentOn c' = sentOn c ++ (sentBy ⟨c, e, o, c'⟩).toList := by
  cases e with
  | command rq ident net =>
    obtain ⟨⟨outcome, c₁⟩, hsend, heq⟩ := Option.map_eq_some_iff.mp hs
    cases heq
    obtain ⟨hc', hsent⟩ := (atddSendCommand_sends hsend).carrying hc
    refine ⟨hc', hsent.trans (congrArg _ ?_)⟩
    cases outcome <;> rfl
  | fetch =>
    obtain ⟨⟨res, client⟩, hfetch, heq⟩ := Option.map_eq_some_iff.mp hs
    cases heq
    obtain ⟨hkey, hbuf⟩ := (atddFetchCommand_fetched hfetch).sends
    refine ⟨⟨hkey.trans hc.signs, ?_, hc.current, hc.former⟩, by simp [sentBy, sentOn, connections]⟩
    rw [hbuf]
    exact hc.starts
  | errorReport =>
    cases hs
    exact ⟨⟨hc.signs, hc.starts, hc.current, hc.former⟩, by simp [sentBy, sentOn, connections]⟩
  | clearError =>
    cases hs
    exact ⟨⟨hc.signs, hc.starts, hc.current, hc.former⟩, by simp [sentBy, sentOn, connections]⟩

/-- The buffer of a new client starts with the magic number and a NUL. -/
theorem create_carrying {n preferred : ℕ} {sendBuf : Block UInt8 maxCmdSize} {parseBuf : Block UInt8 maxResponseSize}
    (hcreate : atddClientCreate key n preferred sendBuf parseBuf = some c₀) :
    (∃ b₅ b₆, Carrying h key (magicNumber ++ [0, b₅, b₆]) c₀) ∧ sentOn c₀ = [] := by
  simp only [atddClientCreate, Option.bind_eq_bind, Option.bind_eq_some_iff, Option.some_inj] at hcreate
  obtain ⟨client, hsetup, hc₀⟩ := hcreate
  obtain ⟨client', hsetup', hkey, b₅, b₆, hstart⟩ := setupSendBuf_start
    { hmacKey := key, sock := [], sendBuf, sendBufPos := 0, completedPos := 0, acceptedPos := 0, parseBuf,
      parseBufPos := 0, parseState := ⟨.ok, 0, false⟩ }
  obtain rfl : client' = client := Option.some.inj (hsetup'.symm.trans hsetup)
  cases hc₀
  exact ⟨⟨b₅, b₆, hkey, hstart, by simp, by simp⟩, rfl⟩

theorem carrying {P : Connection → Event → Prop} (hr : Run (step h) P c₀ tr c) (hc₀ : Carrying h key start c₀)
    (hnone : sentOn c₀ = []) : Carrying h key start c ∧ sentOn c = tr.filterMap sentBy := by
  refine hr.invariant (I := fun tr c => Carrying h key start c ∧ sentOn c = tr.filterMap sentBy) ⟨hc₀, hnone⟩ ?_
  rintro tr x _ ⟨hc, hsent⟩ _ hs
  obtain ⟨hc', hsent'⟩ := step_carrying hs hc
  refine ⟨hc', ?_⟩
  rw [hsent', hsent, List.filterMap_append]
  cases hx : sentBy x <;> simp [hx]

/-- The commands that a process is to read. -/
def Outgoing.toRead (o : Outgoing) : List RegisterCommand := o.commands.map fun p => .client (commandOf p.1 p.2)

/-- CORRECT (sending): in every run, whatever `kernel_sendmsg` and `tcp_connect` return, the commands that
    `atdd_send_command` has returned 0 for are those on the connections, in the order in which they were sent,
    and from each connection a process reads exactly the commands on it, with valid tags and in order: all of
    them if all bytes arrive, and the first ones if some do. -/
theorem streams_decode (h : Hmac) (systemKey key : List UInt8) {n preferred : ℕ} {sendBuf : Block UInt8 maxCmdSize}
    {parseBuf : Block UInt8 maxResponseSize} {P : Connection → Event → Prop}
    (hcreate : atddClientCreate key n preferred sendBuf parseBuf = some c₀) (hr : Run (step h) P c₀ tr c) :
    (connections c).flatMap Outgoing.commands = tr.filterMap sentBy ∧
      ∀ o ∈ connections c, ReadsExactly h ⟨systemKey, key⟩ o.bytes (Outgoing.toRead o) ∧
        ∀ k, ∃ n, ReadsExactly h ⟨systemKey, key⟩ (o.bytes.take k) ((Outgoing.toRead o).take n) := by
  obtain ⟨⟨b₅, b₆, hc₀⟩, hnone⟩ := create_carrying (h := h) hcreate
  obtain ⟨hc, hsent⟩ := carrying hr hc₀ hnone
  -- the connection there is carries no part of a frame: none of the bytes of any
  have hbytes : ∀ o ∈ connections c, ∃ p k, k < (requestFrame h key (magicNumber ++ [0, b₅, b₆]) p).length ∧
      o.bytes = o.commands.flatMap (requestFrame h key (magicNumber ++ [0, b₅, b₆])) ++
        (requestFrame h key (magicNumber ++ [0, b₅, b₆]) p).take k := by
    refine forall_connections.mpr ⟨hc.former, fun hup => ⟨(readRequest, 0), 0, ?_, by simp [hc.current hup]⟩⟩
    simp [requestFrame, content]
  refine ⟨hsent, fun o ho => ?_⟩
  obtain ⟨p, i, hi, hbytes⟩ := hbytes o ho
  have hwhole := requestFrame_whole h systemKey key 0 b₅ b₆
  have hreads := readsExactly_frames hwhole hi o.commands
  rw [← hbytes] at hreads
  refine ⟨?_, fun k => ?_⟩
  · obtain ⟨m, hm, hall⟩ := hreads o.bytes.length
    have hle := hall le_rfl
    rw [List.take_length, List.take_of_length_le (by rwa [List.length_map])] at hm
    exact hm
  · obtain ⟨m, hm, -⟩ := hreads k
    exact ⟨m, hm⟩

section run

/-- A client with two addresses that prefers the first. -/
def twoAddresses : Option Connection :=
  atddClientCreate [] 2 0 ⟨List.replicate _ 0xa5, List.length_replicate⟩
    ⟨List.replicate _ 0xa5, List.length_replicate⟩

/-- A read is sent in two pieces; the next one is cut, and sent again to the other address. -/
def cutAndSentAgain : List Event :=
  [.command readRequest 0 ⟨fun _ _ => true, [], [.again, .sent 10, .sent 60]⟩,
    .command readRequest 10 ⟨fun _ _ => true, [], [.sent 20, .failed]⟩,
    .command readRequest 10 ⟨fun _ addr => addr = 1, [], [.sent 60]⟩]

set_option maxRecDepth 40000

theorem cutAndSentAgain_run : ∃ c₀ tr c, twoAddresses = some c₀ ∧ Run (step sumHmac) (fun _ _ => True) c₀ tr c ∧
    (connections c).map Outgoing.addr = [0, 1] ∧ (tr.filterMap sentBy).map Prod.snd = [0, 10] := by
  have hexec : twoAddresses.any (fun c₀ => (exec (step sumHmac) c₀ cutAndSentAgain).any fun r =>
      decide (∀ x ∈ r.1, True) && decide ((connections r.2).map Outgoing.addr = [0, 1] ∧
        (r.1.filterMap sentBy).map Prod.snd = [0, 10])) = true := by decide +kernel
  obtain ⟨c₀, hc₀, hexec⟩ := (Option.any_eq_true ..).mp hexec
  obtain ⟨tr, c, h, hobs⟩ := Run.exists_of_exec (step sumHmac) (fun _ _ => True) c₀ cutAndSentAgain
    (fun tr c => (connections c).map Outgoing.addr = [0, 1] ∧ (tr.filterMap sentBy).map Prod.snd = [0, 10]) hexec
  exact ⟨c₀, tr, c, hc₀, h, of_decide_eq_true hobs⟩

theorem cutAndSentAgain_decode : ∃ c₀ tr c, twoAddresses = some c₀ ∧ Run (step sumHmac) (fun _ _ => True) c₀ tr c ∧
    (connections c).map Outgoing.addr = [0, 1] ∧ (tr.filterMap sentBy).map Prod.snd = [0, 10] ∧
    ∀ o ∈ connections c, ReadsExactly sumHmac ⟨[], []⟩ o.bytes (Outgoing.toRead o) := by
  obtain ⟨c₀, tr, c, hc₀, h, haddr, hsent⟩ := cutAndSentAgain_run
  exact ⟨c₀, tr, c, hc₀, h, haddr, hsent, fun o ho => ((streams_decode sumHmac [] [] hc₀ h).2 o ho).1⟩

end run

end Connection

end AtomicDisk.Driver
