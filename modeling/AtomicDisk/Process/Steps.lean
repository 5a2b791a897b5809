import AtomicDisk.Process.RegisterProcess
import AtomicDisk.Register.Handlers

/-! What one step of a process can do. `Stepped` lists the steps event by event, each with what it finds and the
    state it leaves; a step is one of them (`step_stepped`). Proofs about runs split on these and never unfold
    `step`.

        receive ──▶ take            a client command, to be given to its worker
                ──▶ refuseHmac, refuseSector
                ──▶ deliver         a system command, given to its worker
                ──▶ misdirect       a system command for a sector without a worker
                ──▶ ignore          a system command with a bad tag -/

namespace AtomicDisk.Process
open Schemes Register Transfer

/-- The connection is about to write an error response for `t`. -/
def Conn.Replying (k : Conn) (t : Ticket) : Prop := k = .replyingHmac t ∨ k = .replyingSector t

/-- The steps: event, state after it, effects. -/
inductive Stepped (p : Config) (w : World) : Event → World → List (Effect Ticket) → Prop
  | accept : Stepped p w .accept { w with conns := w.conns ++ [.reading] } []
  | take {c : ℕ} {cmd : ClientRegisterCommand} : w.conns[c]? = some .reading →
      cmd.header.sectorIdx < p.nSectors →
      Stepped p w (.receive c (.client cmd) true)
        { w with conns := w.conns.set c (.acquiring ⟨w.received, c, cmd⟩)
                 received := w.received + 1 } []
  | refuseHmac {c : ℕ} {cmd : ClientRegisterCommand} : w.conns[c]? = some .reading →
      Stepped p w (.receive c (.client cmd) false)
        { w with conns := w.conns.set c (.replyingHmac ⟨w.received, c, cmd⟩)
                 received := w.received + 1 } []
  | refuseSector {c : ℕ} {cmd : ClientRegisterCommand} : w.conns[c]? = some .reading →
      ¬ cmd.header.sectorIdx < p.nSectors →
      Stepped p w (.receive c (.client cmd) true)
        { w with conns := w.conns.set c (.replyingSector ⟨w.received, c, cmd⟩)
                 received := w.received + 1 } []
  | deliver {c : ℕ} {cmd : SystemRegisterCommand} {k : Worker} : w.conns[c]? = some .reading →
      w.workers[cmd.header.sectorIdx.toNat]? = some k →
      Stepped p w (.receive c (.system cmd) true)
        { w with workers := w.workers.set cmd.header.sectorIdx.toNat (k.push (.system cmd, none)) } []
  | misdirect {c : ℕ} {cmd : SystemRegisterCommand} : w.conns[c]? = some .reading →
      Stepped p w (.receive c (.system cmd) true) { w with conns := w.conns.set c .closed } []
  | ignore {c : ℕ} {cmd : SystemRegisterCommand} : w.conns[c]? = some .reading →
      Stepped p w (.receive c (.system cmd) false) w []
  | hangUp {c : ℕ} : w.conns[c]? = some .reading →
      Stepped p w (.hangUp c) { w with conns := w.conns.set c .closed } []
  | acquire {c permits : ℕ} {t : Ticket} : w.conns[c]? = some (.acquiring t) →
      w.guards[t.sector]? = some (permits + 1) →
      Stepped p w (.acquire c)
        { w with conns := w.conns.set c (.sending t), guards := w.guards.set t.sector permits } []
  | send {c : ℕ} {t : Ticket} {k : Worker} : w.conns[c]? = some (.sending t) → w.workers[t.sector]? = some k →
      Stepped p w (.send c)
        { w with
          conns := w.conns.set c .reading
          workers := w.workers.set t.sector (k.push (.client t.cmd, some t)) } []
  | reply {c : ℕ} {k : Conn} {t : Ticket} {bytes : List UInt8} : w.conns[c]? = some k → k.Replying t →
      Stepped p w (.reply c)
        { w with conns := w.conns.set c .reading, written := w.written ++ [⟨c, t, bytes⟩] } []
  | selfMessage {cmd : SystemRegisterCommand} {k : Worker} :
      w.workers[cmd.header.sectorIdx.toNat]? = some k →
      Stepped p w (.selfMessage cmd)
        { w with workers := w.workers.set cmd.header.sectorIdx.toNat (k.push (.system cmd, none)) } []
  | client {s : ℕ} {uuid : Uuid} {order : IterOrder UInt8 ReadEntry} {cmd : ClientRegisterCommand}
      {t : Ticket} {queue : List (RegisterCommand × Option Ticket)} {r : AtomicRegisterState Ticket} :
      w.workers[s]? = some ⟨(.client cmd, some t) :: queue, r, none⟩ →
      Stepped p w (.work s uuid order)
        { w with workers := w.workers.set s ⟨queue, (clientCommand r cmd t uuid).1, none⟩ }
        (clientCommand r cmd t uuid).2
  | system {s : ℕ} {uuid : Uuid} {order : IterOrder UInt8 ReadEntry} {cmd : SystemRegisterCommand}
      {callback : Option Ticket} {queue : List (RegisterCommand × Option Ticket)}
      {r r' : AtomicRegisterState Ticket} {effs : List (Effect Ticket)} :
      w.workers[s]? = some ⟨(.system cmd, callback) :: queue, r, none⟩ →
      systemCommand p.overflowChecks order r cmd = some (r', effs) →
      Stepped p w (.work s uuid order)
        { w with workers := w.workers.set s ⟨queue, r', invoked effs⟩ } effs
  | respond {s : ℕ} {queue : List (RegisterCommand × Option Ticket)} {r : AtomicRegisterState Ticket}
      {t : Ticket} {opSuccess : OperationSuccess} {rid : UInt64} {msgType : UInt8} :
      w.workers[s]? = some ⟨queue, r, some (.respond t opSuccess)⟩ →
      getRidAndMsgType (.client t.cmd) = some (rid, msgType) →
      Stepped p w (.respond s)
        { w with
          workers := w.workers.set s ⟨queue, r, some (.release t)⟩
          written := w.written ++
            [⟨t.conn, t, constructValidResponse p.hmac opSuccess p.hmacClientKey msgType rid⟩] } []
  | release {s : ℕ} {queue : List (RegisterCommand × Option Ticket)} {r : AtomicRegisterState Ticket}
      {t : Ticket} : w.workers[s]? = some ⟨queue, r, some (.release t)⟩ →
      Stepped p w (.release s)
        { w with
          workers := w.workers.set s ⟨queue, r, none⟩
          guards := w.guards.modify t.sector (· + 1) } []

variable {p : Config} {w w' : World} {e : Event} {effs : List (Effect Ticket)}

theorem World.enqueue_eq {cmd : SystemRegisterCommand} (h : w.enqueue cmd = some w') :
    ∃ k, w.workers[cmd.header.sectorIdx.toNat]? = some k ∧
      w' = { w with
        workers := w.workers.set cmd.header.sectorIdx.toNat (k.push (.system cmd, none)) } := by
  obtain ⟨k, hk, rfl⟩ := Option.map_eq_some_iff.mp h
  exact ⟨k, hk, rfl⟩

theorem receive_stepped {c : ℕ} (hc : w.conns[c]? = some .reading) (cmd : RegisterCommand) (ok : Bool) :
    Stepped p w (.receive c cmd ok) (w.receive p c cmd ok) [] := by
  cases cmd with
  | client cmd =>
    cases ok with
    | true =>
      rw [World.receive]
      split
      · rename_i hlt
        exact .take hc hlt
      · rename_i hge
        exact .refuseSector hc hge
    | false => exact .refuseHmac hc
  | system cmd =>
    cases ok with
    | true =>
      rw [World.receive]
      cases hq : w.enqueue cmd with
      | none => exact .misdirect hc
      | some w' =>
        obtain ⟨k, hk, rfl⟩ := World.enqueue_eq hq
        exact .deliver hc hk
    | false => exact .ignore hc

/-- Every step is one of those listed. -/
theorem step_stepped (hs : step p w e = some (w', effs)) : Stepped p w e w' effs := by
  cases e with
  | accept =>
    obtain ⟨rfl, rfl⟩ := Prod.mk.inj (Option.some.inj hs)
    exact .accept
  | receive c cmd ok =>
    simp only [step] at hs
    split at hs
    · rename_i hc
      obtain ⟨rfl, rfl⟩ := Prod.mk.inj (Option.some.inj hs)
      exact receive_stepped hc cmd ok
    · simp at hs
  | hangUp c =>
    simp only [step] at hs
    split at hs
    · rename_i hc
      obtain ⟨rfl, rfl⟩ := Prod.mk.inj (Option.some.inj hs)
      exact .hangUp hc
    · simp at hs
  | acquire c =>
    simp only [step] at hs
    split at hs
    · rename_i t hc
      split at hs
      · rename_i permits hg
        obtain ⟨rfl, rfl⟩ := Prod.mk.inj (Option.some.inj hs)
        exact .acquire hc hg
      · simp at hs
    · simp at hs
  | send c =>
    simp only [step] at hs
    split at hs
    · rename_i t hc
      obtain ⟨k, hk, hs⟩ := Option.map_eq_some_iff.mp hs
      obtain ⟨rfl, rfl⟩ := Prod.mk.inj hs
      exact .send hc hk
    · simp at hs
  | reply c =>
    simp only [step] at hs
    split at hs
    · rename_i t hc
      obtain ⟨⟨rid, msgType⟩, -, hs⟩ := Option.map_eq_some_iff.mp hs
      obtain ⟨rfl, rfl⟩ := Prod.mk.inj hs
      exact .reply hc (Or.inl rfl)
    · rename_i t hc
      obtain ⟨⟨rid, msgType⟩, -, hs⟩ := Option.map_eq_some_iff.mp hs
      obtain ⟨rfl, rfl⟩ := Prod.mk.inj hs
      exact .reply hc (Or.inr rfl)
    · simp at hs
  | selfMessage cmd =>
    obtain ⟨w₁, hq, hs⟩ := Option.map_eq_some_iff.mp hs
    obtain ⟨rfl, rfl⟩ := Prod.mk.inj hs
    obtain ⟨k, hk, rfl⟩ := World.enqueue_eq hq
    exact .selfMessage hk
  | work s uuid order =>
    simp only [step] at hs
    split at hs
    · rename_i cmd callback queue r hk
      obtain ⟨⟨r', effs'⟩, hhandler, hs⟩ := Option.map_eq_some_iff.mp hs
      obtain ⟨rfl, rfl⟩ := Prod.mk.inj hs
      cases cmd with
      | client cmd =>
        obtain ⟨t, rfl, heq⟩ := Option.map_eq_some_iff.mp hhandler
        obtain rfl : (clientCommand r cmd t uuid).1 = r' := by rw [heq]
        obtain rfl : (clientCommand r cmd t uuid).2 = effs' := by rw [heq]
        have hnone : invoked (clientCommand r cmd t uuid).2 = none := by
          rw [clientCommand_effects]
          rfl
        rw [hnone]
        exact .client hk
      | system cmd => exact .system hk hhandler
    · simp at hs
  | respond s =>
    simp only [step] at hs
    split at hs
    · rename_i queue r t opSuccess hk
      obtain ⟨⟨rid, msgType⟩, hmsg, hs⟩ := Option.map_eq_some_iff.mp hs
      obtain ⟨rfl, rfl⟩ := Prod.mk.inj hs
      exact .respond hk hmsg
    · simp at hs
  | release s =>
    simp only [step] at hs
    split at hs
    · rename_i queue r t hk
      obtain ⟨rfl, rfl⟩ := Prod.mk.inj (Option.some.inj hs)
      exact .release hk
    · simp at hs

end AtomicDisk.Process
