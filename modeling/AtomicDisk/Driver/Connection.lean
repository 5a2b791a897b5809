import AtomicDisk.Driver.Relay
import AtomicDisk.Driver.Requests

/-! How the driver's client sends (`atdd_tcp_client.c`, `tcp.c`). It has one connection at a time, to one of the
    addresses it is configured with. When a command is to be sent and there is no connection, it asks the
    address it prefers, unless that was the last one, and then all addresses from the last one on:

        atdd_send_command ──▶ connected? ──no──▶ preferred_addr ──▶ target + 1 ──▶ target + 2 ──▶ … ──▶ -EIO
                                  │ yes ◀──────────────┴────────────────┴──────────────┘
                                  ▼
                               tcp_send ──error──▶ atdd_disconnect

    `out`, `former` and what is in them are no variables of the driver: they tell what has been handed to the
    kernel on each connection, and which commands `atdd_send_command` has returned 0 for. -/

namespace AtomicDisk.Driver
open Schemes Transfer

/-- What has gone out on a connection. -/
structure Outgoing where
  addr : ℕ
  bytes : List UInt8
  commands : List (Request × UInt64)

/-- `struct atdd_tcp_client` with its configuration and its connection. -/
structure Connection where
  client : AtddTcpClient
  addrsCount : ℕ
  preferredAddr : ℕ
  connectionTarget : ℕ
  connected : Bool
  error : Bool
  /-- on the connection, if there is one -/
  out : Outgoing
  /-- on the connections that have been released -/
  former : List Outgoing

/-- What `kernel_sendmsg` returns. -/
inductive SendMsg where
  /-- so many bytes have been taken, but not more than there are -/
  | sent (len : ℕ)
  /-- `-ERESTARTSYS` or `-EAGAIN` -/
  | again
  | failed

/-- What the network does while a command is sent. -/
structure Net where
  /-- whether the `k`-th call of `tcp_connect` is successful, when it is to this address; the call to the
      preferred address has number 0 -/
  accepts : ℕ → ℕ → Bool
  /-- what a new connection will hand over to `kernel_recvmsg` -/
  incoming : List (List UInt8)
  sends : List SendMsg

/-- `atdd_client_create`, with what the memory of the buffers holds. -/
def atddClientCreate (hmacKey : List UInt8) (addrsCount preferredAddr : ℕ) (sendBuf : Block UInt8 maxCmdSize)
    (parseBuf : Block UInt8 maxResponseSize) : Option Connection := do
  let client ← setupSendBuf
    { hmacKey, sock := [], sendBuf, sendBufPos := 0, completedPos := 0, acceptedPos := 0, parseBuf, parseBufPos := 0,
      parseState := ⟨.ok, 0, false⟩ }
  some
    { client, addrsCount, preferredAddr, connectionTarget := addrsCount, connected := false, error := false,
      out := ⟨0, [], []⟩, former := [] }

namespace Connection

/-- `atdd_disconnect`. -/
def disconnect (c : Connection) : Connection :=
  { c with
    connected := false
    client := { c.client with sock := [], parseBufPos := 0, acceptedPos := c.client.completedPos }
    former := c.former ++ [c.out] }

/-- A call of `tcp_connect` to the address is successful. -/
def connectTo (c : Connection) (net : Net) (addr : ℕ) : Connection :=
  { c with
    connectionTarget := addr
    connected := true
    error := false
    client := { c.client with sock := net.incoming }
    out := ⟨addr, [], []⟩ }

/-- The call for the preferred address. -/
def tryPreferred (net : Net) (c : Connection) : Connection :=
  if c.connected = false ∧ c.connectionTarget ≠ c.preferredAddr ∧ net.accepts 0 c.preferredAddr = true then
    c.connectTo net c.preferredAddr
  else c

/-- The loop over all addresses, with the number of the next call and of the turns that are left. -/
def tryAll (net : Net) : ℕ → ℕ → Connection → Connection
  | _, 0, c => c
  | k, turns + 1, c =>
    let addr := (c.connectionTarget + 1) % c.addrsCount
    if net.accepts k addr = true then c.connectTo net addr
    else tryAll net (k + 1) turns { c with connectionTarget := addr }

/-- The first part of `send_atdd_cmd_over_tcp`. -/
def ensureConnected (net : Net) (c : Connection) : Connection :=
  let c := tryPreferred net c
  if c.connected = true then c else tryAll net 1 c.addrsCount c

/-- The loop of `tcp_send`: whether everything is sent, and what has been. It goes on as long as the calls of
    `kernel_sendmsg` do. -/
def tcpSend : List SendMsg → List UInt8 → Option (Bool × List UInt8)
  | _, [] => some (true, [])
  | [], _ :: _ => none
  | .sent len :: sends, b :: data => (tcpSend sends ((b :: data).drop len)).map fun (ok, bytes) =>
      (ok, (b :: data).take len ++ bytes)
  | .again :: sends, b :: data => tcpSend sends (b :: data)
  | .failed :: _, _ :: _ => some (false, [])

/-- `send_atdd_cmd_over_tcp`. -/
def sendAtddCmdOverTcp (net : Net) (c : Connection) : Option (SendOutcome × Connection) :=
  let c := ensureConnected net c
  if c.connected = true then do
    let data ← c.client.sendBuf.load 0 c.client.sendBufPos
    let (ok, bytes) ← tcpSend net.sends data
    let c := { c with out := { c.out with bytes := c.out.bytes ++ bytes } }
    some (if ok = true then (.sent, c) else (.broken, c.disconnect))
  else some (.unconnected, c)

/-- `atdd_send_command`. -/
def atddSendCommand (h : Hmac) (net : Net) (c : Connection) (rq : Request) (ident : UInt64) :
    Option (SendOutcome × Connection) := do
  let client ← prepareCmdContent h c.client rq ident
  let (outcome, c) ← sendAtddCmdOverTcp net { c with client }
  match outcome with
  | .sent => some (.sent,
      { c with
        client := { c.client with acceptedPos := c.client.acceptedPos + 1 }
        out := { c.out with commands := c.out.commands ++ [(rq, ident)] } })
  | outcome => some (outcome, c)

/-- What the client is used for, and what happens to it. -/
inductive Event where
  | command (rq : Request) (ident : UInt64) (net : Net)
  /-- `atdd_fetch_command` -/
  | fetch
  /-- `atdd_sk_error_report` -/
  | errorReport
  /-- `atdd_client_clear_error` -/
  | clearError

def step (h : Hmac) (c : Connection) : Event → Option (Connection × Option SendOutcome)
  | .command rq ident net => (atddSendCommand h net c rq ident).map fun (outcome, c) => (c, some outcome)
  | .fetch => (atddFetchCommand h c.client).map fun (_, client) => ({ c with client }, none)
  | .errorReport => some ({ c with error := true }, none)
  | .clearError => some ({ c with error := false }, none)

abbrev Trace := List (Entry Connection Event (Option SendOutcome))

/-! ### Connecting -/

variable {c c' : Connection} {net : Net} {h : Hmac} {rq : Request} {ident : UInt64} {outcome : SendOutcome}

/-- The calls of the loop, each with its number and address. -/
def inTurn (count k target turns : ℕ) : List (ℕ × ℕ) :=
  (List.range turns).map fun j => (j + k, (target + 1 + j) % count)

/-- The calls of `tcp_connect` when there is no connection, as long as none is successful. -/
def attempts (c : Connection) : List (ℕ × ℕ) :=
  (if c.connectionTarget = c.preferredAddr then [] else [(0, c.preferredAddr)]) ++
    inTurn c.addrsCount 1 c.connectionTarget c.addrsCount

/-- The connection is made by the first of the calls that is successful, if there is one. -/
inductive Connects (net : Net) (c : Connection) (calls : List (ℕ × ℕ)) : Connection → Prop
  | made (p : ℕ × ℕ) (hfirst : calls.find? (fun p => net.accepts p.1 p.2) = some p) :
      Connects net c calls (c.connectTo net p.2)
  | refused (target : ℕ) (hnone : ∀ p ∈ calls, net.accepts p.1 p.2 = false) :
      Connects net c calls { c with connectionTarget := target }

theorem Connects.cons {p : ℕ × ℕ} {calls : List (ℕ × ℕ)} {target : ℕ} (hp : net.accepts p.1 p.2 = false)
    (hc : Connects net { c with connectionTarget := target } calls c') : Connects net c (p :: calls) c' := by
  cases hc with
  | made q hfirst => exact .made q (by rw [List.find?_cons, hp]; exact hfirst)
  | refused target' hnone =>
    refine .refused target' fun q hq => ?_
    rcases List.mem_cons.mp hq with rfl | hq
    · exact hp
    · exact hnone q hq

theorem inTurn_succ (count k target turns : ℕ) : inTurn count k target (turns + 1) =
    (k, (target + 1) % count) :: inTurn count (k + 1) ((target + 1) % count) turns := by
  rw [inTurn, List.range_succ_eq_map, List.map_cons, List.map_map, zero_add, add_zero, inTurn]
  refine congrArg _ (List.map_congr_left fun j _ => ?_)
  refine Prod.ext ?_ ?_
  · show j + 1 + k = j + (k + 1)
    omega
  · show (target + 1 + (j + 1)) % count = ((target + 1) % count + 1 + j) % count
    rw [add_assoc ((target + 1) % count), Nat.mod_add_mod, add_comm 1 j]

theorem tryAll_connects (net : Net) (turns : ℕ) : ∀ (k : ℕ) (c : Connection),
    Connects net c (inTurn c.addrsCount k c.connectionTarget turns) (tryAll net k turns c) := by
  induction turns with
  | zero => exact fun k c => .refused c.connectionTarget (by simp [inTurn])
  | succ turns ih =>
    intro k c
    rw [inTurn_succ, tryAll]
    split
    · rename_i haccepts
      exact .made (k, (c.connectionTarget + 1) % c.addrsCount) (by simp [haccepts])
    · rename_i hrefuses
      exact .cons (Bool.eq_false_iff.mpr hrefuses) (ih (k + 1) { c with connectionTarget := _ })

/-- Without a connection all attempts are made, up to the first that is successful. -/
theorem ensureConnected_connects (net : Net) (hdown : c.connected = false) :
    Connects net c (attempts c) (ensureConnected net c) := by
  have hall := tryAll_connects net c.addrsCount 1 c
  have hnot : ¬ c.connected = true := by simp [hdown]
  rw [attempts, ensureConnected]
  by_cases htarget : c.connectionTarget = c.preferredAddr
  · have hskipped : tryPreferred net c = c := if_neg (by simp [htarget])
    rw [hskipped, if_pos htarget, if_neg hnot]
    exact hall
  · rw [if_neg htarget]
    cases haccepts : net.accepts 0 c.preferredAddr with
    | true =>
      have hmade : tryPreferred net c = c.connectTo net c.preferredAddr := if_pos ⟨hdown, htarget, haccepts⟩
      have hup : (c.connectTo net c.preferredAddr).connected = true := rfl
      rw [hmade, if_pos hup]
      exact .made (0, c.preferredAddr) (by simp [haccepts])
    | false =>
      have hrefused : tryPreferred net c = c := if_neg (by simp [haccepts])
      rw [hrefused, if_neg hnot]
      exact .cons haccepts hall

theorem ensureConnected_up (net : Net) (hup : c.connected = true) : ensureConnected net c = c := by
  have hskipped : tryPreferred net c = c := if_neg (by simp [hup])
  rw [ensureConnected, hskipped, if_pos hup]

/-- Every address is asked. -/
theorem attempts_all {a : ℕ} (ha : a < c.addrsCount) : ∃ k, (k, a) ∈ attempts c := by
  have hj : (a + c.addrsCount - (c.connectionTarget + 1) % c.addrsCount) % c.addrsCount < c.addrsCount :=
    Nat.mod_lt _ (by omega)
  refine ⟨_, List.mem_append_right _ (List.mem_map.mpr ⟨_, List.mem_range.mpr hj, Prod.ext rfl ?_⟩)⟩
  have hlt := Nat.mod_lt (c.connectionTarget + 1) (show 0 < c.addrsCount by omega)
  dsimp only
  rw [Nat.add_mod_mod, ← Nat.mod_add_mod]
  have hsum : (c.connectionTarget + 1) % c.addrsCount + (a + c.addrsCount - (c.connectionTarget + 1) % c.addrsCount) =
      a + c.addrsCount := by omega
  rw [hsum, Nat.add_mod_right, Nat.mod_eq_of_lt ha]

/-! ### Sending -/

/-- Everything has been handed over, or `kernel_sendmsg` has failed before. -/
theorem tcpSend_bytes {sends : List SendMsg} {ok : Bool} : ∀ {data bytes : List UInt8},
    tcpSend sends data = some (ok, bytes) →
      (ok = true ∧ bytes = data) ∨ (ok = false ∧ ∃ k < data.length, bytes = data.take k) := by
  induction sends with
  | nil =>
    intro data bytes hsend
    cases data with
    | nil =>
      cases hsend
      exact Or.inl ⟨rfl, rfl⟩
    | cons b data => cases hsend
  | cons msg sends ih =>
    intro data bytes hsend
    cases data with
    | nil =>
      cases hsend
      exact Or.inl ⟨rfl, rfl⟩
    | cons b data =>
      cases msg with
      | sent len =>
        obtain ⟨⟨ok', rest⟩, hrest, heq⟩ := Option.map_eq_some_iff.mp hsend
        obtain ⟨rfl, rfl⟩ := Prod.mk.inj heq
        rcases ih hrest with ⟨rfl, rfl⟩ | ⟨rfl, k, hk, rfl⟩
        · exact Or.inl ⟨rfl, List.take_append_drop ..⟩
        · rw [List.length_drop] at hk
          refine Or.inr ⟨rfl, len + k, by omega, ?_⟩
          rw [List.take_add]
      | again => exact ih hsend
      | failed =>
        cases hsend
        exact Or.inr ⟨rfl, 0, Nat.succ_pos _, rfl⟩

/-- The bytes of a request, with the first seven of the buffer. -/
def requestFrame (h : Hmac) (key start : List UInt8) (p : Request × UInt64) : List UInt8 :=
  content start p.1 p.2 ++ h.tag key (content start p.1 p.2)

/-- The connection that a command is sent on. -/
inductive Reached (net : Net) (c : Connection) : Connection → Prop
  | there (hup : c.connected = true) : Reached net c c
  | made (p : ℕ × ℕ) (hdown : c.connected = false)
      (hfirst : (attempts c).find? (fun p => net.accepts p.1 p.2) = some p) : Reached net c (c.connectTo net p.2)

/-- Only the send buffer has changed. -/
def Refilled (c c' : AtddTcpClient) : Prop := ∃ sendBuf sendBufPos, c' = { c with sendBuf, sendBufPos }

theorem Refilled.trans {c₁ c₂ c₃ : AtddTcpClient} (h : Refilled c₁ c₂) (h' : Refilled c₂ c₃) : Refilled c₁ c₃ := by
  obtain ⟨buf, pos, rfl⟩ := h
  obtain ⟨buf', pos', rfl⟩ := h'
  exact ⟨buf', pos', rfl⟩

theorem appendToSendBuf_refilled {c c' : AtddTcpClient} {bytes : List UInt8} (h : appendToSendBuf c bytes = some c') :
    Refilled c c' := by
  obtain ⟨buf, -, h⟩ := Option.bind_eq_some_iff.mp h
  exact ⟨buf, _, (Option.some.inj h).symm⟩

theorem appendData_refilled {c c' : AtddTcpClient} (h : appendData c rq = some c') : Refilled c c' := by
  simp only [appendData, Option.bind_eq_bind, Option.bind_eq_some_iff] at h
  obtain ⟨type, -, h⟩ := h
  split at h
  · exact appendToSendBuf_refilled h
  · exact ⟨_, _, (Option.some.inj h).symm⟩

theorem prepareCmdContent_refilled {c c' : AtddTcpClient} (hprepare : prepareCmdContent h c rq ident = some c') :
    Refilled c c' := by
  simp only [prepareCmdContent, Option.bind_eq_bind, Option.bind_eq_some_iff, Option.some_inj] at hprepare
  obtain ⟨c₁, h₁, c₂, h₂, c₃, h₃, c₄, h₄, c₅, h₅, rfl⟩ := hprepare
  have hbegin : Refilled c { c with sendBufPos := sendBufPosStart } := ⟨c.sendBuf, _, rfl⟩
  have htag : Refilled c₄ c₅ := by
    obtain ⟨message, -, h₅⟩ := Option.bind_eq_some_iff.mp h₅
    obtain ⟨buf, -, h₅⟩ := Option.bind_eq_some_iff.mp h₅
    exact ⟨buf, _, (Option.some.inj h₅).symm⟩
  have hfields := (hbegin.trans (appendToSendBuf_refilled h₁)).trans (appendToSendBuf_refilled h₂)
  have hdata := (hfields.trans (appendToSendBuf_refilled h₃)).trans (appendData_refilled h₄)
  exact (hdata.trans htag).trans ⟨c₅.sendBuf, _, rfl⟩

/-- Everything `atdd_send_command` can do. -/
inductive Sends (h : Hmac) (net : Net) (c : Connection) (rq : Request) (ident : UInt64) :
    SendOutcome → Connection → Prop
  | unconnected (client : AtddTcpClient) (target : ℕ) (hclient : prepareCmdContent h c.client rq ident = some client)
      (hdown : c.connected = false) (hnone : ∀ p ∈ attempts c, net.accepts p.1 p.2 = false) :
      Sends h net c rq ident .unconnected { c with client, connectionTarget := target }
  | sent (client : AtddTcpClient) (c₁ : Connection) (hclient : prepareCmdContent h c.client rq ident = some client)
      (hreached : Reached net { c with client } c₁) :
      Sends h net c rq ident .sent
        { c₁ with
          client := { c₁.client with acceptedPos := c₁.client.acceptedPos + 1 }
          out := ⟨c₁.out.addr, c₁.out.bytes ++
            requestFrame h c.client.hmacKey (c.client.sendBuf.front sendBufPosStart) (rq, ident),
            c₁.out.commands ++ [(rq, ident)]⟩ }
  | broken (client : AtddTcpClient) (c₁ : Connection) (k : ℕ)
      (hclient : prepareCmdContent h c.client rq ident = some client) (hreached : Reached net { c with client } c₁)
      (hk : k < (requestFrame h c.client.hmacKey (c.client.sendBuf.front sendBufPosStart) (rq, ident)).length) :
      Sends h net c rq ident .broken
        (disconnect { c₁ with
          out := { c₁.out with bytes := c₁.out.bytes ++
            (requestFrame h c.client.hmacKey (c.client.sendBuf.front sendBufPosStart) (rq, ident)).take k } })

theorem Reached.client {c₁ : Connection} (hr : Reached net c c₁) : c₁.connected = true ∧
    ∃ sock, c₁.client = { c.client with sock } := by
  cases hr with
  | there hup => exact ⟨hup, _, rfl⟩
  | made p hdown hfirst => exact ⟨rfl, _, rfl⟩

/-- What the first part of `send_atdd_cmd_over_tcp` leads to. -/
theorem ensureConnected_cases (net : Net) (c : Connection) :
    Reached net c (ensureConnected net c) ∨ (c.connected = false ∧ (∀ p ∈ attempts c, net.accepts p.1 p.2 = false) ∧
      ∃ target, ensureConnected net c = { c with connectionTarget := target }) := by
  rcases Bool.eq_false_or_eq_true c.connected with hup | hdown
  · rw [ensureConnected_up net hup]
    exact Or.inl (.there hup)
  · have hconnects := ensureConnected_connects net hdown
    generalize ensureConnected net c = c' at hconnects
    cases hconnects with
    | made p hfirst => exact Or.inl (.made p hdown hfirst)
    | refused target hnone => exact Or.inr ⟨hdown, hnone, target, rfl⟩

theorem atddSendCommand_sends (hsend : atddSendCommand h net c rq ident = some (outcome, c')) :
    Sends h net c rq ident outcome c' := by
  obtain ⟨client, hprepare, hsend⟩ := Option.bind_eq_some_iff.mp hsend
  obtain ⟨⟨outcome₁, c₂⟩, hover, hsend⟩ := Option.bind_eq_some_iff.mp hsend
  obtain ⟨client', hprepare', -, hfilled⟩ := prepareCmdContent_filled h c.client rq ident
  obtain rfl : client' = client := Option.some.inj (hprepare'.symm.trans hprepare)
  have hload : client'.sendBuf.load 0 client'.sendBufPos =
      some (requestFrame h c.client.hmacKey (c.client.sendBuf.front sendBufPosStart) (rq, ident)) := by
    rw [hfilled.load (by rw [hfilled.length, zero_add]), List.drop_zero, List.take_of_length_le hfilled.length.le]
    rfl
  rw [sendAtddCmdOverTcp] at hover
  rcases ensureConnected_cases net { c with client := client' } with hreached | ⟨hdown, hnone, target, hc₁⟩
  · generalize ensureConnected net { c with client := client' } = c₁ at hreached hover
    obtain ⟨hup, sock, hclient⟩ := hreached.client
    have hload₁ : c₁.client.sendBuf.load 0 c₁.client.sendBufPos =
        some (requestFrame h c.client.hmacKey (c.client.sendBuf.front sendBufPosStart) (rq, ident)) := by
      rw [hclient]
      exact hload
    rw [if_pos hup] at hover
    simp only [hload₁, Option.bind_eq_bind, Option.bind_some, Option.bind_eq_some_iff] at hover
    obtain ⟨⟨ok, bytes⟩, hbytes, hover⟩ := hover
    rcases tcpSend_bytes hbytes with ⟨rfl, rfl⟩ | ⟨rfl, k, hk, rfl⟩
    · cases hover
      cases hsend
      exact .sent client' c₁ hprepare hreached
    · cases hover
      cases hsend
      exact .broken client' c₁ k hprepare hreached hk
  · have hnot : ¬ c.connected = true := Bool.eq_false_iff.mp hdown
    rw [hc₁, if_neg hnot] at hover
    cases hover
    cases hsend
    exact .unconnected client' target hprepare hdown hnone

end Connection

end AtomicDisk.Driver
