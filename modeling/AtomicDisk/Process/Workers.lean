import AtomicDisk.Process.Tasks

/-! What a step of the tasks does to one worker that survives it: nothing, or a command more in its queue, or
    another part of its callback done, or one handler run on its register. -/

namespace AtomicDisk.Process
open Schemes Register Transfer

/-- The command that a step brings to the queues. -/
inductive Brings (w : World) : Event → RegisterCommand × Option Ticket → Prop
  | client {c : ℕ} {t : Ticket} : w.conns[c]? = some (.sending t) →
      Brings w (.send c) (.client t.cmd, some t)
  | system {c : ℕ} {cmd : SystemRegisterCommand} : Brings w (.receive c (.system cmd) true) (.system cmd, none)
  | self {cmd : SystemRegisterCommand} : Brings w (.selfMessage cmd) (.system cmd, none)

/-- The sector an item of a queue is for. -/
def itemSector : RegisterCommand × Option Ticket → ℕ
  | (.client cmd, _) => cmd.header.sectorIdx.toNat
  | (.system cmd, _) => cmd.header.sectorIdx.toNat

/-- What a step does to worker `s`: the worker before, the effects of the step, the worker after. -/
inductive Served (p : Config) (w : World) (s : ℕ) : Event → List (Effect Ticket) → Worker → Worker → Prop
  | same {e : Event} {effs : List (Effect Ticket)} {k : Worker} :
      (∀ uuid order, e ≠ .work s uuid order) → Served p w s e effs k k
  /-- a part of the callback is done -/
  | running {e : Event} {k : Worker} {running : Option Running} :
      (∀ uuid order, e ≠ .work s uuid order) → (∀ t op, running ≠ some (.respond t op)) →
      Served p w s e [] k { k with running }
  | push {e : Event} {k : Worker} {x : RegisterCommand × Option Ticket} : Brings w e x → itemSector x = s →
      Served p w s e [] k (k.push x)
  | client {uuid : Uuid} {order : IterOrder UInt8 ReadEntry} {cmd : ClientRegisterCommand} {t : Ticket}
      {queue : List (RegisterCommand × Option Ticket)} {r : AtomicRegisterState Ticket} :
      Served p w s (.work s uuid order) (clientCommand r cmd t uuid).2
        ⟨(.client cmd, some t) :: queue, r, none⟩ ⟨queue, (clientCommand r cmd t uuid).1, none⟩
  | system {uuid : Uuid} {order : IterOrder UInt8 ReadEntry} {cmd : SystemRegisterCommand}
      {callback : Option Ticket} {queue : List (RegisterCommand × Option Ticket)}
      {r r' : AtomicRegisterState Ticket} {effs : List (Effect Ticket)} :
      systemCommand p.overflowChecks order r cmd = some (r', effs) →
      Served p w s (.work s uuid order) effs
        ⟨(.system cmd, callback) :: queue, r, none⟩ ⟨queue, r', invoked effs⟩

variable {p : Config} {w w' : World} {e : Event} {effs : List (Effect Ticket)} {s i : ℕ} {k k' : Worker}

/-- One worker is replaced, and only by what the step does to it. -/
theorem served_set {x : Worker} (hi : w.workers[i]? = some x) (hx : Served p w i e effs x k)
    (hother : ∀ s uuid order, s ≠ i → e ≠ .work s uuid order) (hk : (w.workers.set i k)[s]? = some k') :
    ∃ k₀, w.workers[s]? = some k₀ ∧ Served p w s e effs k₀ k' := by
  rcases eq_or_ne s i with rfl | hne
  · obtain rfl : k = k' := by
      have hlt := (List.getElem?_eq_some_iff.mp hi).1
      simpa [List.getElem?_set, hlt] using hk
    exact ⟨x, hi, hx⟩
  · exact ⟨k', by simpa [List.getElem?_set, hne.symm] using hk,
      .same fun uuid order => hother s uuid order hne⟩

/-- What a step of the process does to a worker. -/
theorem step_served (hs : step p w e = some (w', effs)) (hk : w'.workers[s]? = some k') :
    ∃ k, w.workers[s]? = some k ∧ Served p w s e effs k k' := by
  cases step_stepped hs with
  | accept | take | refuseHmac | refuseSector | misdirect | ignore | hangUp | acquire | reply =>
    exact ⟨k', hk, .same (by simp)⟩
  | deliver _ hx => exact served_set hx (.push .system rfl) (by simp) hk
  | selfMessage hx => exact served_set hx (.push .self rfl) (by simp) hk
  | send hc hx => exact served_set hx (.push (.client hc) rfl) (by simp) hk
  | client hx => exact served_set hx .client (fun s uuid' order' hne heq => hne (Event.work.inj heq).1.symm) hk
  | system hx hsys =>
    exact served_set hx (.system hsys) (fun s uuid' order' hne heq => hne (Event.work.inj heq).1.symm) hk
  | respond hx | release hx => exact served_set hx (.running (by simp) (by simp)) (by simp) hk

variable {t t' : Tasks} {te : TaskEvent}

/-- A worker that is replaced because it dies. -/
theorem dies_other {x : Worker} (hs : s ∉ (t.dies p i x).dead)
    (hk : (t.dies p i x).world.workers[s]? = some k') :
    s ∉ t.dead ∧ s ≠ i ∧ t.world.workers[s]? = some k' := by
  have hne : s ≠ i := fun heq => hs (by simp [Tasks.dies, heq])
  exact ⟨fun hd => hs (List.mem_cons_of_mem _ hd), hne,
    by simpa [Tasks.dies, List.getElem?_set, hne.symm] using hk⟩

/-- What a step of the tasks does to a worker that is there after it. -/
theorem taskStep_served (hs : taskStep p t te = some (t', effs)) (hdead : s ∉ t'.dead)
    (hk : t'.world.workers[s]? = some k') : s ∉ t.dead ∧ ∃ k, t.world.workers[s]? = some k ∧
      ((∃ e, te = .run e ∧ Served p t.world s e effs k k') ∨
        k' = k ∧ (∀ uuid order, te ≠ .run (.work s uuid order)) ∧
          ∀ order, te ≠ .panics s order) := by
  cases taskStep_stepped hs with
  | runs hrun =>
    obtain ⟨k, hk₀, hserved⟩ := step_served hrun hk
    exact ⟨hdead, k, hk₀, Or.inl ⟨_, rfl, hserved⟩⟩
  | fails => exact ⟨hdead, k', hk, Or.inr ⟨rfl, by simp, by simp⟩⟩
  | @closes e c x hc hheld hconn =>
    refine ⟨hdead, k', hk, Or.inr ⟨rfl, ?_, by simp⟩⟩
    rintro uuid order ⟨⟩
    cases hconn
  | abandons => exact ⟨hdead, k', hk, Or.inr ⟨rfl, by simp, by simp⟩⟩
  | selfHandlerPanics => exact ⟨hdead, k', hk, Or.inr ⟨rfl, by simp, by simp⟩⟩
  | @handlerPanics i order cmd callback queue r hi =>
    obtain ⟨hd, hne, hk₀⟩ := dies_other hdead hk
    exact ⟨hd, k', hk₀, Or.inr ⟨rfl, by simp, fun order' heq => hne (TaskEvent.panics.inj heq).1.symm⟩⟩
  | callbackPanics hi =>
    obtain ⟨hd, -, hk₀⟩ := dies_other hdead hk
    exact ⟨hd, k', hk₀, Or.inr ⟨rfl, by simp, by simp⟩⟩

end AtomicDisk.Process
