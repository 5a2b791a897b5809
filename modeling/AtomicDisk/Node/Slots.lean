import AtomicDisk.Node.SectorLength
import AtomicDisk.Node.Steps
import AtomicDisk.Process.Workers

/-! One sector at one process: its worker, with the effects left to it and the `write` it waits for. To the
    slot of a sector a step of the process does one of a few things (`Turn`), whatever it does elsewhere:

        none ──starts──▶ idle ──client, system──▶ effects ──begins, advance…, written, done──▶ idle
                                    any ──dies──▶ none

    The one step left out is the rename, at which a `write` takes effect: it is what the directory and the slot
    do together, and stands apart (`Renames` in `Durable`).

    A slot is empty while the process is not up, and after its worker has panicked. -/

namespace AtomicDisk.Node
open Schemes Register Transfer
open Process (Config Tasks TaskEvent Ticket Worker taskStep Served taskStep_served)
open Storage (FileName Sector DataAccess Call SectorsManagerState)

structure Slot where
  worker : Worker
  todo : List (Effect Ticket)
  writing : Option Call

/-- The slot of sector `s` in a process that is up. -/
def Live.slot (l : Live) (s : ℕ) : Option Slot :=
  if s ∈ l.tasks.dead then none else l.tasks.world.workers[s]?.map fun k => ⟨k, l.todo s, l.writing s⟩

def World.slot (w : World) (s : ℕ) : Option Slot :=
  match w.phase with
  | .up l => l.slot s
  | _ => none

/-- The worker is to store its copy, and the file does not have its name yet. -/
def Slot.lags (x : Slot) : Bool :=
  match x.todo with
  | .write _ _ :: _ =>
    match x.writing with
    | some ⟨_, .renamed⟩ | some ⟨_, .updated _⟩ | some ⟨_, .removed⟩ => false
    | _ => true
  | _ => false

/-- The worker that a sector starts with. -/
def bootWorker (p : Config) (m : SectorsManagerState) (s : ℕ) : Worker :=
  ⟨[], buildAtomicRegister p.selfIdent (.ofNat s) p.processesCount
    ((m.readData (.ofNat s)).getD .zeros, m.readMetadata (.ofNat s)), none⟩

/-- Where a command for a queue comes from. -/
inductive Arrives (p : Config) (key : List UInt8) (w : World) : Event → RegisterCommand × Option Ticket → Prop
  /-- from a client, with the permit of its sector -/
  | client {l : Live} {c : ℕ} {t : Ticket} : w.phase = .up l → l.tasks.world.conns[c]? = some (.sending t) →
      Arrives p key w (.task (.run (.send c))) (.client t.cmd, some t)
  | system {c : ℕ} {stream rest : List UInt8} {cmd : SystemRegisterCommand} :
      deserializeRc p.hmac ⟨key, p.hmacClientKey⟩ stream = .ok ((.system cmd, true), rest) →
      Arrives p key w (.read c stream) (.system cmd, none)
  | self {l : Live} {cmd : SystemRegisterCommand} {queue : List SystemRegisterCommand} : w.phase = .up l →
      l.client.selfQueue = cmd :: queue → Arrives p key w .selfMessage (.system cmd, none)

/-- Worker `s` does not run a handler. -/
def Quiet (s : ℕ) (e : Event) : Prop := ∀ uuid order, e ≠ .task (.run (.work s uuid order))

/-- What a step does to the slot of sector `s`: event, slot before, slot after. -/
inductive Turn (p : Config) (key : List UInt8) (w : World) (s : ℕ) : Event → Option Slot → Option Slot → Prop
  | empty {e : Event} : Turn p key w s e none none
  | same {e : Event} {x : Slot} : Quiet s e → Turn p key w s e (some x) (some x)
  /-- a part of the callback is done -/
  | running {e : Event} {k : Worker} {running : Option Process.Running} {todo : List (Effect Ticket)}
      {writing : Option Call} : Quiet s e → (∀ t op, running ≠ some (.respond t op)) →
      Turn p key w s e (some ⟨k, todo, writing⟩) (some ⟨{ k with running }, todo, writing⟩)
  | arrives {e : Event} {k : Worker} {item : RegisterCommand × Option Ticket} {todo : List (Effect Ticket)}
      {writing : Option Call} : Arrives p key w e item → Process.itemSector item = s →
      Turn p key w s e (some ⟨k, todo, writing⟩) (some ⟨k.push item, todo, writing⟩)
  | client {uuid : Uuid} {order : IterOrder UInt8 ReadEntry} {cmd : ClientRegisterCommand} {t : Ticket}
      {queue : List (RegisterCommand × Option Ticket)} {r : AtomicRegisterState Ticket} :
      Turn p key w s (.task (.run (.work s uuid order))) (some ⟨⟨(.client cmd, some t) :: queue, r, none⟩, [], none⟩)
        (some ⟨⟨queue, (clientCommand r cmd t uuid).1, none⟩, (clientCommand r cmd t uuid).2, none⟩)
  | system {uuid : Uuid} {order : IterOrder UInt8 ReadEntry} {cmd : SystemRegisterCommand}
      {callback : Option Ticket} {queue : List (RegisterCommand × Option Ticket)}
      {r r' : AtomicRegisterState Ticket} {effs : List (Effect Ticket)} :
      systemCommand p.overflowChecks order r cmd = some (r', effs) →
      Turn p key w s (.task (.run (.work s uuid order)))
        (some ⟨⟨(.system cmd, callback) :: queue, r, none⟩, [], none⟩)
        (some ⟨⟨queue, r', Process.invoked effs⟩, effs, none⟩)
  /-- an effect other than a `write` has been carried out -/
  | done {k : Worker} {eff : Effect Ticket} {todo : List (Effect Ticket)} :
      (∀ idx sector, eff ≠ .write idx sector) →
      Turn p key w s (.perform s) (some ⟨k, eff :: todo, none⟩) (some ⟨k, todo, none⟩)
  | begins {k : Worker} {idx : SectorIdx} {sector : Sector} {todo : List (Effect Ticket)} :
      idx.toNat = s → Turn p key w s (.perform s) (some ⟨k, .write idx sector :: todo, none⟩)
        (some ⟨k, .write idx sector :: todo, some ⟨sector, .begun⟩⟩)
  /-- a step of `write` other than the rename -/
  | advance {k : Worker} {idx : SectorIdx} {sector : Sector} {todo : List (Effect Ticket)}
      {call call' : Call} : idx.toNat = s → call.sector = sector → call'.sector = sector →
      Slot.lags ⟨k, .write idx sector :: todo, some call'⟩ =
        Slot.lags ⟨k, .write idx sector :: todo, some call⟩ →
      Turn p key w s (.write s) (some ⟨k, .write idx sector :: todo, some call⟩)
        (some ⟨k, .write idx sector :: todo, some call'⟩)
  | written {k : Worker} {idx : SectorIdx} {sector : Sector} {todo : List (Effect Ticket)}
      {call : Call} : idx.toNat = s → call.sector = sector → call.stage = .removed →
      Turn p key w s (.perform s) (some ⟨k, .write idx sector :: todo, some call⟩) (some ⟨k, todo, none⟩)
  | dies {e : Event} {x : Slot} : Turn p key w s e (some x) none
  | starts {da : DataAccess} : w.phase = .recovering da [] → s < p.nSectors.toNat →
      ((SectorsManagerState.mk w.dir da).readData (.ofNat s)).isSome = true →
      Turn p key w s .recover none (some ⟨bootWorker p ⟨w.dir, da⟩ s, [], none⟩)

variable {p : Config} {key : List UInt8} {dir dir' : Directory FileName} {l l' : Live} {w w' : World}
  {e : Event} {s : ℕ} {x : Slot} {k : Worker}

theorem slot_eq_some : l.slot s = some x ↔ s ∉ l.tasks.dead ∧ l.tasks.world.workers[s]? = some x.worker ∧
    x.todo = l.todo s ∧ x.writing = l.writing s := by
  obtain ⟨k, todo, writing⟩ := x
  simp only [Live.slot, Option.ite_none_left_eq_some, Option.map_eq_some_iff, Slot.mk.injEq]
  constructor
  · rintro ⟨hdead, k, hk, rfl, rfl, rfl⟩
    exact ⟨hdead, hk, rfl, rfl⟩
  · rintro ⟨hdead, hk, rfl, rfl⟩
    exact ⟨hdead, k, hk, rfl, rfl, rfl⟩

theorem slot_up (dir : Directory FileName) (l : Live) (s : ℕ) : World.slot ⟨dir, .up l⟩ s = l.slot s := rfl

theorem slot_of_worker (hdead : s ∉ l.tasks.dead) (hk : l.tasks.world.workers[s]? = some k) :
    l.slot s = some ⟨k, l.todo s, l.writing s⟩ := slot_eq_some.mpr ⟨hdead, hk, rfl, rfl⟩

/-- A step of `write` other than the rename. -/
theorem lags_advance {idx : SectorIdx} {sector : Sector} {todo : List (Effect Ticket)} {call call' : Call}
    {m m' : SectorsManagerState} (h : call.advance idx m = some (m', call')) (hne : call.stage ≠ .filled) :
    call'.sector = call.sector ∧ Slot.lags ⟨k, .write idx sector :: todo, some call'⟩ =
      Slot.lags ⟨k, .write idx sector :: todo, some call⟩ := by
  obtain ⟨⟨data, ts, wr⟩, stage⟩ := call
  cases stage with
  | begun | created | removed =>
    obtain ⟨-, rfl⟩ := Prod.mk.inj (Option.some.inj h)
    exact ⟨rfl, rfl⟩
  | filled => exact absurd rfl hne
  | renamed =>
    obtain ⟨c, -, heq⟩ := Option.map_eq_some_iff.mp h
    obtain ⟨-, rfl⟩ := Prod.mk.inj heq
    exact ⟨rfl, rfl⟩
  | updated old =>
    simp only [Call.advance] at h
    split at h
    · obtain ⟨c, -, heq⟩ := Option.map_eq_some_iff.mp h
      obtain ⟨-, rfl⟩ := Prod.mk.inj heq
      exact ⟨rfl, rfl⟩
    · obtain ⟨-, rfl⟩ := Prod.mk.inj (Option.some.inj h)
      exact ⟨rfl, rfl⟩

/-- A worker that was there and is not any more has died. -/
theorem turn_none (h : l'.slot s = none) : Turn p key w s e (l.slot s) (l'.slot s) := by
  rw [h]
  cases l.slot s with
  | none => exact .empty
  | some x => exact .dies

theorem turn_same (h : Quiet s e) (x : Option Slot) : Turn p key w s e x x := by
  cases x with
  | none => exact .empty
  | some x => exact .same h

/-- The tasks stay as they are. -/
theorem turn_tasks (htasks : l'.tasks = l.tasks)
    (h : ∀ k, l.tasks.world.workers[s]? = some k → s ∉ l.tasks.dead →
      Turn p key w s e (some ⟨k, l.todo s, l.writing s⟩) (some ⟨k, l'.todo s, l'.writing s⟩)) :
    Turn p key w s e (l.slot s) (l'.slot s) := by
  simp only [Live.slot, htasks]
  split
  · exact .empty
  · rename_i hdead
    cases hk : l.tasks.world.workers[s]? with
    | none => exact .empty
    | some k => exact h k hk hdead

/-- The effects or the call of one worker change. -/
theorem turn_worker {i : ℕ} (hquiet : s ≠ i → Quiet s e) (htasks : l'.tasks = l.tasks)
    (htodo : s ≠ i → l'.todo s = l.todo s) (hwriting : s ≠ i → l'.writing s = l.writing s)
    (h : ∀ k, s = i → Turn p key w s e (some ⟨k, l.todo s, l.writing s⟩) (some ⟨k, l'.todo s, l'.writing s⟩)) :
    Turn p key w s e (l.slot s) (l'.slot s) := by
  refine turn_tasks htasks fun k _ _ => ?_
  rcases eq_or_ne s i with heq | hne
  · exact h k heq
  · rw [htodo hne, hwriting hne]
    exact .same (hquiet hne)

/-- The tasks take a step in which the worker runs no handler. -/
theorem turn_task {te : TaskEvent} {tasks : Tasks} {effs : List (Effect Ticket)}
    (hs : taskStep (l.config p) l.tasks te = some (tasks, effs)) (hbegins : begins te ≠ some s)
    (hquiet : Quiet s e)
    (harrives : ∀ pe item, te = .run pe → Process.Brings l.tasks.world pe item → Arrives p key w e item)
    (htasks : l'.tasks = tasks) (htodo : l'.todo s = l.todo s) (hwriting : l'.writing s = l.writing s) :
    Turn p key w s e (l.slot s) (l'.slot s) := by
  cases hx : l'.slot s with
  | none =>
    rw [← hx]
    exact turn_none hx
  | some x =>
    obtain ⟨k, todo, writing⟩ := x
    obtain ⟨hdead, hk, hxt, hxw⟩ := slot_eq_some.mp hx
    rw [htasks] at hdead hk
    obtain ⟨hdead₀, k₀, hk₀, hcase⟩ := taskStep_served hs hdead hk
    rw [slot_of_worker hdead₀ hk₀, ← htodo, ← hwriting, ← hxt, ← hxw]
    rcases hcase with ⟨pe, rfl, hserved⟩ | ⟨rfl, -⟩
    · cases hserved with
      | same => exact .same hquiet
      | running _ hrunning => exact .running hquiet hrunning
      | push hbrings hsector => exact .arrives (harrives _ _ rfl hbrings) hsector
      | client | system => exact absurd rfl hbegins
    · exact .same hquiet

/-- The worker runs a handler, or panics in it. -/
theorem turn_work {te : TaskEvent} {tasks : Tasks} {effs : List (Effect Ticket)} (hfull : LiveFull dir l)
    (hbegins : begins te = some s) (hempty : l.todo s = [])
    (hs : taskStep (l.config p) l.tasks te = some (tasks, effs)) :
    Turn p key w s (.task te) (l.slot s)
      (Live.slot { l with tasks, todo := Function.update l.todo s effs } s) := by
  cases hx : Live.slot { l with tasks, todo := Function.update l.todo s effs } s with
  | none =>
    rw [← hx]
    exact turn_none hx
  | some x =>
    obtain ⟨k, todo, writing⟩ := x
    obtain ⟨hdead, hk, hxt, hxw⟩ := slot_eq_some.mp hx
    obtain ⟨hdead₀, k₀, hk₀, hcase⟩ := taskStep_served hs hdead hk
    have hnone : l.writing s = none := hfull.not_writing (by simp [hempty])
    obtain rfl : todo = effs := hxt.trans (Function.update_self ..)
    obtain rfl : writing = none := hxw.trans hnone
    rw [slot_of_worker hdead₀ hk₀, hempty, hnone]
    rcases hcase with ⟨pe, rfl, hserved⟩ | ⟨rfl, hwork, hpanics⟩
    · cases hserved with
      | client => exact .client
      | system hsys => exact .system hsys
      | same hne | running hne _ =>
        cases pe with
        | work i uuid order => exact absurd (by rw [Option.some.inj hbegins]) (hne uuid order)
        | _ => cases hbegins
      | push hbrings => cases hbrings <;> cases hbegins
    · cases te with
      | run pe =>
        cases pe with
        | work i uuid order => exact absurd (by rw [Option.some.inj hbegins]) (hwork uuid order)
        | _ => cases hbegins
      | panics i order => exact absurd (by rw [Option.some.inj hbegins]) (hpanics order)
      | _ => cases hbegins

/-- Worker `i` panics while it carries out an effect. -/
theorem turn_panics {i : ℕ} (hquiet : Quiet s e) : Turn p key w s e (l.slot s)
    (Live.slot { l with
      tasks := l.tasks.dies (l.config p) i k
      todo := Function.update l.todo i []
      writing := Function.update l.writing i none
      sending := Function.update l.sending i none } s) := by
  generalize hl' : ({ l with
    tasks := l.tasks.dies (l.config p) i k
    todo := Function.update l.todo i []
    writing := Function.update l.writing i none
    sending := Function.update l.sending i none } : Live) = l'
  cases hx : l'.slot s with
  | none =>
    rw [← hx]
    exact turn_none hx
  | some x =>
    subst hl'
    obtain ⟨hdead, hk, hxt, hxw⟩ := slot_eq_some.mp hx
    obtain ⟨hdead₀, hne, hk₀⟩ := Process.dies_other hdead hk
    have hsame : l.slot s = some x := slot_eq_some.mpr ⟨hdead₀, hk₀,
      hxt.trans (Function.update_of_ne hne ..), hxw.trans (Function.update_of_ne hne ..)⟩
    rw [hsame]
    exact .same hquiet

theorem slot_boot (p : Config) (m : SectorsManagerState) (s : ℕ) : (boot p m).slot s =
    if s < p.nSectors.toNat ∧ (m.readData (.ofNat s)).isSome = true then some ⟨bootWorker p m s, [], none⟩
    else none := by
  simp only [Live.slot, boot, Process.initTasks, Process.init, List.mem_filter, List.mem_range,
    List.getElem?_map, Option.isNone_iff_eq_none]
  by_cases hlt : s < p.nSectors.toNat
  · cases m.readData (.ofNat s) with
    | none => simp [hlt]
    | some v => simp [hlt, bootWorker]
  · simp [hlt]

end AtomicDisk.Node
