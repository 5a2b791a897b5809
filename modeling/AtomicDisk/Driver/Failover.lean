import AtomicDisk.Driver.Streams

/-! The connections of a client, over whole runs. A command is sent on the connection there is, or on the one that
    is made to the first address that accepts; `-EIO` means that every address has been asked and has refused.
    What `atdd_send_command` returns is what a relay takes for the outcome of sending (`send_step`). -/

namespace AtomicDisk.Driver
open Schemes Transfer

namespace Connection

variable {c c₁ c' c₀ : Connection} {net : Net} {h : Hmac} {key : List UInt8} {rq : Request} {ident : UInt64}
  {outcome : SendOutcome} {e : Event} {o : Option SendOutcome} {tr : Trace} {n preferred : ℕ}

/-- The configuration stays, and connections are made to its addresses. -/
structure Addressed (n preferred : ℕ) (c : Connection) : Prop where
  count : c.addrsCount = n
  preferred : c.preferredAddr = preferred
  made : ∀ o ∈ connections c, o.addr < n

/-- The addresses that are asked are those of the configuration. -/
theorem mem_attempts (hpreferred : c.preferredAddr < c.addrsCount) {a : ℕ} :
    (∃ k, (k, a) ∈ attempts c) ↔ a < c.addrsCount := by
  refine ⟨?_, attempts_all⟩
  rintro ⟨k, hk⟩
  rcases List.mem_append.mp hk with hk | hk
  · split at hk
    · cases hk
    · obtain ⟨-, rfl⟩ := Prod.mk.inj (List.mem_singleton.mp hk)
      exact hpreferred
  · obtain ⟨j, hj, heq⟩ := List.mem_map.mp hk
    obtain ⟨-, rfl⟩ := Prod.mk.inj heq
    exact Nat.mod_lt _ (by omega)

theorem Addressed.mem_attempts (hc : Addressed n preferred c) (hpreferred : preferred < n) {a : ℕ} :
    (∃ k, (k, a) ∈ attempts c) ↔ a < n := by
  rw [← hc.count, ← hc.preferred] at hpreferred
  rw [Connection.mem_attempts hpreferred, hc.count]

theorem Reached.addressed (hr : Reached net c c₁) (hc : Addressed n preferred c) (hpreferred : preferred < n) :
    Addressed n preferred c₁ := by
  cases hr with
  | there hup => exact hc
  | made p hdown hfirst =>
    refine ⟨hc.count, hc.preferred, forall_connections.mpr ⟨(forall_connections.mp hc.made).1, fun _ => ?_⟩⟩
    exact (hc.mem_attempts hpreferred).mp ⟨p.1, List.mem_of_find?_eq_some hfirst⟩

theorem Sends.addressed (hs : Sends h net c rq ident outcome c') (hc : Addressed n preferred c)
    (hpreferred : preferred < n) : Addressed n preferred c' := by
  cases hs with
  | unconnected client target hclient hdown hnone => exact ⟨hc.count, hc.preferred, hc.made⟩
  | sent client c₁ hclient hreached =>
    have hc₁ : Addressed n preferred c₁ := hreached.addressed ⟨hc.count, hc.preferred, hc.made⟩ hpreferred
    obtain ⟨hformer, hout⟩ := forall_connections.mp hc₁.made
    exact ⟨hc₁.count, hc₁.preferred, forall_connections.mpr ⟨hformer, hout⟩⟩
  | broken client c₁ k hclient hreached hk =>
    have hc₁ : Addressed n preferred c₁ := hreached.addressed ⟨hc.count, hc.preferred, hc.made⟩ hpreferred
    obtain ⟨hformer, hout⟩ := forall_connections.mp hc₁.made
    refine ⟨hc₁.count, hc₁.preferred, forall_connections.mpr ⟨fun o ho => ?_, by simp [disconnect]⟩⟩
    rcases List.mem_append.mp ho with ho | ho
    · exact hformer o ho
    · rw [List.mem_singleton.mp ho]
      exact hout hreached.client.1

theorem step_addressed (hs : step h c e = some (c', o)) (hc : Addressed n preferred c) (hpreferred : preferred < n) :
    Addressed n preferred c' := by
  cases e with
  | command rq ident net =>
    obtain ⟨⟨outcome, c₁⟩, hsend, heq⟩ := Option.map_eq_some_iff.mp hs
    cases heq
    exact (atddSendCommand_sends hsend).addressed hc hpreferred
  | fetch =>
    obtain ⟨⟨res, client⟩, -, heq⟩ := Option.map_eq_some_iff.mp hs
    cases heq
    exact ⟨hc.count, hc.preferred, hc.made⟩
  | errorReport =>
    cases hs
    exact ⟨hc.count, hc.preferred, hc.made⟩
  | clearError =>
    cases hs
    exact ⟨hc.count, hc.preferred, hc.made⟩

theorem create_addressed {sendBuf : Block UInt8 maxCmdSize} {parseBuf : Block UInt8 maxResponseSize}
    (hcreate : atddClientCreate key n preferred sendBuf parseBuf = some c₀) : Addressed n preferred c₀ := by
  simp only [atddClientCreate, Option.bind_eq_bind, Option.bind_eq_some_iff, Option.some_inj] at hcreate
  obtain ⟨client, -, rfl⟩ := hcreate
  exact ⟨rfl, rfl, by simp [connections]⟩

/-- The connection that a command has been sent on, as far as it could be. -/
theorem Reached.target (hr : Reached net c c₁) :
    (c.connected = true ∧ c₁.connectionTarget = c.connectionTarget) ∨ (c.connected = false ∧
      ∃ p, (attempts c).find? (fun p => net.accepts p.1 p.2) = some p ∧ c₁.connectionTarget = p.2) := by
  cases hr with
  | there hup => exact Or.inl ⟨hup, rfl⟩
  | made p hdown hfirst => exact Or.inr ⟨hdown, p, hfirst, rfl⟩

theorem accepted_not_refused {calls : List (ℕ × ℕ)} {p : ℕ × ℕ}
    (hfirst : calls.find? (fun p => net.accepts p.1 p.2) = some p) : ¬ ∀ p ∈ calls, net.accepts p.1 p.2 = false := by
  intro hnone
  have haccepts := List.find?_some hfirst
  rw [hnone p (List.mem_of_find?_eq_some hfirst)] at haccepts
  cases haccepts

/-- What `atdd_send_command` does about the connection. -/
structure SentTo (net : Net) (c : Connection) (outcome : SendOutcome) (c' : Connection) : Prop where
  /-- it returns `-EIO` if there is no connection, and all attempts fail -/
  refused : outcome = .unconnected ↔ c.connected = false ∧ ∀ p ∈ attempts c, net.accepts p.1 p.2 = false
  /-- otherwise it uses the connection there is, or that of the first attempt that is successful -/
  target : outcome ≠ .unconnected → (c.connected = true ∧ c'.connectionTarget = c.connectionTarget) ∨
    (c.connected = false ∧ ∃ p, (attempts c).find? (fun p => net.accepts p.1 p.2) = some p ∧
      c'.connectionTarget = p.2)
  /-- and gives it up only if `tcp_send` fails -/
  kept : c'.connected = true ↔ outcome = .sent

theorem Sends.sentTo (hs : Sends h net c rq ident outcome c') : SentTo net c outcome c' := by
  have hreached : ∀ client c₁, Reached net { c with client } c₁ →
      ¬ (c.connected = false ∧ ∀ p ∈ attempts c, net.accepts p.1 p.2 = false) := by
    rintro client c₁ hr ⟨hdown, hnone⟩
    rcases hr.target with ⟨hup, -⟩ | ⟨-, p, hfirst, -⟩
    · rw [show c.connected = true from hup] at hdown
      cases hdown
    · exact accepted_not_refused hfirst hnone
  cases hs with
  | unconnected client target hclient hdown hnone =>
    exact ⟨iff_of_true rfl ⟨hdown, hnone⟩, fun hne => absurd rfl hne, by simp [hdown]⟩
  | sent client c₁ hclient hr =>
    exact ⟨iff_of_false (by simp) (hreached client c₁ hr), fun _ => hr.target, iff_of_true hr.client.1 rfl⟩
  | broken client c₁ k hclient hr hk =>
    exact ⟨iff_of_false (by simp) (hreached client c₁ hr), fun _ => hr.target,
      iff_of_false (by simp [disconnect]) (by simp)⟩

/-- CORRECT (failover): in every run of a client with `n` addresses, whatever the network does, all connections
    are made to these addresses; in every state reached the addresses that would be asked are all of them, and
    `atdd_send_command` fails for want of a connection only if all have been asked and have refused. -/
theorem fails_over {id : ℕ} {sendBuf : Block UInt8 maxCmdSize} {parseBuf : Block UInt8 maxResponseSize}
    {P : Connection → Event → Prop} (hn : 0 < n)
    (hcreate : atddClientCreate key n (id % n) sendBuf parseBuf = some c₀) (hr : Run (step h) P c₀ tr c) :
    (∀ o ∈ connections c, o.addr < n) ∧ (∀ a, (∃ k, (k, a) ∈ attempts c) ↔ a < n) ∧
      ∀ net rq ident outcome c', atddSendCommand h net c rq ident = some (outcome, c') → SentTo net c outcome c' := by
  have hpreferred : id % n < n := Nat.mod_lt _ hn
  have hc : Addressed n (id % n) c := by
    refine hr.invariant (I := fun _ c => Addressed n (id % n) c) (create_addressed hcreate) ?_
    intro tr x _ hc _ hs
    exact step_addressed hs hc hpreferred
  exact ⟨hc.made, fun a => hc.mem_attempts hpreferred,
    fun net rq ident outcome c' hsend => (atddSendCommand_sends hsend).sentTo⟩

/-- The second connection is made to the other address, and both would be asked again. -/
theorem cutAndSentAgain_failsOver : ∃ c₀ tr c, twoAddresses = some c₀ ∧
    Run (step sumHmac) (fun _ _ => True) c₀ tr c ∧ (connections c).map Outgoing.addr = [0, 1] ∧
    (∀ o ∈ connections c, o.addr < 2) ∧ (∀ a, (∃ k, (k, a) ∈ attempts c) ↔ a < 2) ∧
    ∀ net rq ident outcome c', atddSendCommand sumHmac net c rq ident = some (outcome, c') →
      SentTo net c outcome c' := by
  obtain ⟨c₀, tr, c, hc₀, h, haddr, -⟩ := cutAndSentAgain_run
  have hpreferred : atddClientCreate [] 2 (0 % 2) ⟨List.replicate _ 0xa5, List.length_replicate⟩
      ⟨List.replicate _ 0xa5, List.length_replicate⟩ = some c₀ := hc₀
  exact ⟨c₀, tr, c, hc₀, h, haddr, fails_over two_pos hpreferred h⟩

/-! ### The client of a relay -/

variable {s : Relay}

/-- The relay's view of the client: what is pending, and the connection. -/
structure Follows (s : Relay) (c : Connection) : Prop where
  mirrors : Mirrors s c.client
  connected : s.connected = c.connected
  error : s.error = c.error

/-- The relay has the connection that a command is sent on. -/
theorem Follows.reached (hf : Follows s c) (hr : Reached net c c₁) : Follows (connect s) c₁ := by
  have hconnected := hf.connected
  have herror := hf.error
  cases hr with
  | there hup =>
    rw [hup] at hconnected
    exact ⟨hf.mirrors, hup.symm, by simp [connect, hconnected, herror]⟩
  | made p hdown hfirst =>
    rw [hdown] at hconnected
    exact ⟨hf.mirrors, rfl, by simp [connect, connectTo, hconnected]⟩

/-- A request in the buffer is nothing to the relay. -/
theorem Follows.prepared (hf : Follows s c) {client : AtddTcpClient}
    (hclient : prepareCmdContent h c.client rq ident = some client) : Follows s { c with client } := by
  obtain ⟨buf, pos, rfl⟩ := prepareCmdContent_refilled hclient
  exact ⟨hf.mirrors, hf.connected, hf.error⟩

/-- Whatever `atdd_send_command` returns for the request in the next slot is a step of the relay, and the relay
    goes on with the client it leaves. -/
theorem send_step {b : BlkRequest} {cmdsToSend : ℕ} (hsend : atddSendCommand h net c b.rq ident = some (outcome, c'))
    (hf : Follows s c) (hphase : s.phase = .sending (cmdsToSend + 1))
    (hslot : s.requestsBuf s.bufTcpForwardedPos = ⟨ident, some b⟩) :
    ∃ s', Driver.step s (.send outcome) = some (s', none) ∧ Follows s' c' := by
  have hstep : ∀ s', sendAcceptedRequest s cmdsToSend outcome = some s' →
      Driver.step s (.send outcome) = some (s', none) := by
    intro s' hs'
    simp only [Driver.step, hphase, hs', Option.map_some]
  cases atddSendCommand_sends hsend with
  | unconnected client target hclient hdown hnone =>
    have hf' := hf.prepared hclient
    have hdown' : ¬ s.connected = true := by simp [hf.connected, hdown]
    refine ⟨_, hstep { sendAgain s with phase := .waiting } ?_, hf'.mirrors, hf'.connected, hf'.error⟩
    simp only [sendAcceptedRequest, hslot]
    exact if_neg hdown'
  | sent client c₁ hclient hreached =>
    have hf₁ := (hf.prepared hclient).reached hreached
    let s' : Relay :=
      { connect s with
        pendingAcceptedPos := s.pendingAcceptedPos + 1
        inFlight := s.inFlight ++ [ident]
        bufTcpForwardedPos := s.bufTcpForwardedPos + 1
        phase := .sending cmdsToSend }
    have hs' : sendAcceptedRequest s cmdsToSend .sent = some s' := by
      simp only [sendAcceptedRequest, hslot]
      rfl
    exact ⟨s', hstep s' hs', ⟨congrArg (· + 1) hf₁.mirrors.1, hf₁.mirrors.2⟩, hf₁.connected, hf₁.error⟩
  | broken client c₁ k hclient hreached hk =>
    have hf₁ := (hf.prepared hclient).reached hreached
    have hs' : sendAcceptedRequest s cmdsToSend .broken =
        some { sendAgain (atddDisconnect (connect s)) with phase := .waiting } := by
      simp only [sendAcceptedRequest, hslot]
    exact ⟨_, hstep _ hs', ⟨hf₁.mirrors.2, hf₁.mirrors.2⟩, rfl, hf₁.error⟩

end Connection

end AtomicDisk.Driver
