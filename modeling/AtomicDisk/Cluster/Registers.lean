import AtomicDisk.Cluster.Traffic
import AtomicDisk.Register.Linearizability
import AtomicDisk.Schemes.Simulation

/-! One sector at one process, against the register system of that sector (`Register.System`). There a handler
    is one step, and its stores and messages are there at once. In the process they come one after the other:
    what has been sent there may here still be on its way, and a handler that stores is there run only when the
    file gets its name, as a crash before that undoes it.

        process:    client ── system ──────────────▶ rename ── send ── … ── dies ── starts
                      │         │ (nothing stored)     │                      │       │
        register:   client    system                 system                 crash   build -/

namespace AtomicDisk.Cluster
open Schemes Register Transfer
open Process (Ticket Worker)
open Node (Slot Turn Renames Kept MetBy contents copyOf bootWorker)
open Storage (Ledger fileAt Newest)

/-- The message has been sent in the register system of sector `idx`, if it is for that sector. -/
def Sent (idx : SectorIdx) (sys : System) (t : UInt8) (m : SystemRegisterCommand) : Prop :=
  m.header.sectorIdx = idx → ⟨m, t⟩ ∈ sys.network

variable {p : Config} {C : EntryCondition} {idx : SectorIdx} {sys sys' : System} {i j : UInt8} {x y : Slot}
  {w w' : Node.World} {e : Node.Event} {tr : Register.Trace}

/-- A register that is to be stored: the handler has still to be run. -/
structure Lags (p : Config) (C : EntryCondition) (sys : System) (i : UInt8) (x : Slot)
    (r : AtomicRegisterState Uuid) (order : IterOrder UInt8 ReadEntry)
    (cmd : SystemRegisterCommand) : Prop where
  register : (sys.process i).register = some r
  handler : systemCommand p.overflowChecks order r cmd =
    some (x.worker.register.named, x.todo.map (Effect.mapCallback fun _ => r.opId.getD (uuid 0)))
  delivered : ⟨cmd, i⟩ ∈ sys.network
  meets : Meets C r cmd

/-- What a worker has to do with the register of its process. -/
structure UpSim (p : Config) (C : EntryCondition) (idx : SectorIdx) (sys : System) (i : UInt8)
    (x : Slot) : Prop where
  agrees : x.lags = false → (sys.process i).register = some x.worker.register.named
  sent : x.lags = false → ∀ eff ∈ x.todo, EffectFor p.processesCount (Sent idx sys) eff
  lags : x.lags = true → ∃ r order cmd, Lags p C sys i x r order cmd

/-- A process without a worker for the sector has no register, or has not been started yet. -/
def SlotSim (p : Config) (C : EntryCondition) (idx : SectorIdx) (sys : System) (i : UInt8) : Option Slot → Prop
  | some x => UpSim p C idx sys i x
  | none => ∀ r, (sys.process i).register = some r →
      r = buildAtomicRegister i idx p.processesCount (sys.process i).sector

structure ProcSim (p : Config) (C : EntryCondition) (idx : SectorIdx) (sys : System) (i : UInt8)
    (w : Node.World) : Prop where
  sector : ∀ d, Newest (fileAt w.dir idx) d → (sys.process i).sector = contents d
  slot : SlotSim p C idx sys i (w.slot idx.toNat)

/-- The response to operation `id` in a callback that is being run. -/
def responded (id : Uuid) : Option Process.Running → List (HEvent Uuid SectorVec)
  | some (.respond _ op) => [.respond id (returnOf op.opReturn)]
  | _ => []

/-- What the worker of sector `idx` does for a client in a step: it starts an operation, or it has completed
    the one it was working on. -/
def served (idx : SectorIdx) (e : Node.Event) (x x' : Option Slot) : List (HEvent Uuid SectorVec) :=
  match e, x, x' with
  | .task (.run (.work s u _)), some x, some x' =>
    if s = idx.toNat then
      match x.worker.queue with
      | (.client cmd, _) :: _ => [.invoke u (callOf cmd.content)]
      | _ => responded (x.worker.register.opId.getD (uuid 0)) x'.worker.running
    else []
  | _, _, _ => []

/-! ### What the relation depends on -/

theorem sent_mono (idx : SectorIdx) (h : ∀ m ∈ sys.network, m ∈ sys'.network) (t : UInt8)
    (m : SystemRegisterCommand) :
    Sent idx sys t m → Sent idx sys' t m := fun hsent hidx => h _ (hsent hidx)

theorem EffectFor.imp {n : UInt8} {Q Q' : UInt8 → SystemRegisterCommand → Prop} {κ : Type} {eff : Effect κ}
    (h : EffectFor n Q eff) (himp : ∀ t m, Q t m → Q' t m) : EffectFor n Q' eff := by
  cases eff with
  | send msg => exact himp _ _ h
  | broadcast cmd => exact fun t ht => himp _ _ (h t ht)
  | write | callback => trivial

theorem UpSim.congr (h : UpSim p C idx sys i x) (hregister : y.worker.register = x.worker.register)
    (htodo : y.todo = x.todo) (hlags : y.lags = x.lags) : UpSim p C idx sys i y := by
  refine ⟨fun hy => ?_, fun hy => ?_, fun hy => ?_⟩
  · rw [hregister]
    exact h.agrees (hlags ▸ hy)
  · rw [htodo]
    exact h.sent (hlags ▸ hy)
  · obtain ⟨r, order, cmd, hl⟩ := h.lags (hlags ▸ hy)
    exact ⟨r, order, cmd, hl.register, by rw [hregister, htodo]; exact hl.handler, hl.delivered, hl.meets⟩

/-- A step of another process. -/
theorem ProcSim.frame (h : ProcSim p C idx sys i w) (hproc : sys'.process i = sys.process i)
    (hnet : ∀ m ∈ sys.network, m ∈ sys'.network) : ProcSim p C idx sys' i w := by
  refine ⟨by rw [hproc]; exact h.sector, ?_⟩
  have hslot := h.slot
  cases hx : w.slot idx.toNat with
  | none =>
    rw [hx] at hslot
    simpa only [SlotSim, hproc] using hslot
  | some x =>
    rw [hx] at hslot
    refine ⟨fun hl => by rw [hproc]; exact hslot.agrees hl,
      fun hl eff heff => (hslot.sent hl eff heff).imp (sent_mono idx hnet), fun hl => ?_⟩
    obtain ⟨r, order, cmd, hlag⟩ := hslot.lags hl
    exact ⟨r, order, cmd, by rw [hproc]; exact hlag.register, hlag.handler, hnet _ hlag.delivered, hlag.meets⟩

/-! ### Effects -/

/-- What a handler sends has been sent once it has run. -/
theorem effectFor_sent {κ : Type} {f : κ → Uuid} {effs : List (Effect κ)} {eff : Effect κ} (heff : eff ∈ effs)
    (hnet : ∀ m ∈ sent (p.params idx) (effs.map (Effect.mapCallback f)), m ∈ sys.network) :
    EffectFor p.processesCount (Sent idx sys) eff := by
  cases eff with
  | send msg => exact fun _ => hnet _ (mem_sent.mpr (Or.inl (List.mem_map.mpr ⟨_, heff, rfl⟩)))
  | broadcast cmd =>
    exact fun t ht _ => hnet _ (mem_sent.mpr (Or.inr ⟨List.mem_map.mpr ⟨_, heff, rfl⟩, ht⟩))
  | write | callback => trivial

theorem lags_of_no_write {k : Worker} {todo : List (Effect Ticket)} {writing : Option Storage.Call}
    (h : ∀ idx sector, .write idx sector ∉ todo) : Slot.lags ⟨k, todo, writing⟩ = false := by
  cases todo with
  | nil => rfl
  | cons eff todo =>
    cases eff with
    | write idx sector => exact absurd (List.mem_cons_self ..) (h idx sector)
    | _ => rfl

/-- The callbacks of a handler, in the history and in the worker. -/
theorem responses_eq {oc : Bool} {r r' : AtomicRegisterState Ticket} {h : SystemCommandHeader}
    {c : SystemRegisterCommandContent} {effs : List (Effect Ticket)} (hh : Handled oc r h c r' effs)
    (id : Uuid) (a b : System) (ev : Register.Event) :
    responsesOf ⟨a, ev, effs.map (Effect.mapCallback fun _ => id), b⟩ =
      responded id (Process.invoked effs) := by
  cases hh <;> rfl

/-- A handler that stores runs no callback. -/
theorem no_callback_of_write {κ : Type} {oc : Bool} {r r' : AtomicRegisterState κ} {h : SystemCommandHeader}
    {c : SystemRegisterCommandContent} {effs : List (Effect κ)} {j : SectorIdx} {sector : Storage.Sector}
    (hh : Handled oc r h c r' effs) (hw : .write j sector ∈ effs) : ∀ f op, .callback f op ∉ effs := by
  cases hh with
  | valueWrite | writeProcAdopt => simp
  | _ => simp at hw

theorem responsesOf_eq_nil {effs : List (Effect Uuid)} (h : ∀ f op, .callback f op ∉ effs) (a b : System)
    (ev : Register.Event) : responsesOf ⟨a, ev, effs, b⟩ = [] := by
  rw [responsesOf, List.filterMap_eq_nil_iff]
  intro eff heff
  cases eff with
  | callback f op => exact absurd heff (h f op)
  | _ => rfl

/-! ### One step of a process -/

/-- What the register system has done for a step of process `i`: none or one step, by that process, that
    starts no other operation and tells the clients the same. -/
structure Answered (p : Config) (C : EntryCondition) (idx : SectorIdx) (sys : System) (i : UInt8)
    (drawn : Option Uuid) (h : List (HEvent Uuid SectorVec)) (l : Register.Trace) (sys' : System) : Prop where
  matched : Matched (Register.step (p.params idx)) (AtQuorum C) sys l sys'
  other : ∀ j, j ≠ i → sys'.process j = sys.process j
  opIds : ∀ u ∈ sys'.opIds, u ∈ sys.opIds ∨ drawn = some u
  history : history l = h

theorem Answered.network {drawn : Option Uuid} {h : List (HEvent Uuid SectorVec)} {l : Register.Trace}
    (ha : Answered p C idx sys i drawn h l sys') : ∀ m ∈ sys.network, m ∈ sys'.network := by
  refine ha.matched.keeps (f := fun s => ∀ m ∈ sys.network, m ∈ s.network) (fun m hm => hm) ?_
  rintro x rfl hs
  exact network_mono hs

theorem answered_stutter (drawn : Option Uuid) : Answered p C idx sys i drawn [] [] sys :=
  ⟨.stutter, fun _ _ => rfl, fun _ hu => Or.inl hu, rfl⟩

/-- The register of a process that works for nobody has no command to complete. -/
theorem not_pending {r : AtomicRegisterState Ticket} (hr : SystemRun (p.params idx) (AtQuorum C) tr sys)
    (hreg : (sys.process i).register = some r.named) (hcb : r.callback = none) :
    (sys.process i).pending = none := by
  cases hp : (sys.process i).pending with
  | none => rfl
  | some id =>
    obtain ⟨-, hid, -⟩ := ((wellFormed hr).live i _ hreg).busy id hp
    simp [AtomicRegisterState.named, AtomicRegisterState.mapCallback, hcb] at hid

theorem named_build (i n : UInt8) (j : SectorIdx) (sector : Storage.Sector) :
    (buildAtomicRegister i j n sector : AtomicRegisterState Ticket).named = buildAtomicRegister i j n sector :=
  rfl

/-- `client_command` of the worker. -/
theorem answered_client {cmd : ClientRegisterCommand} {t : Ticket} {u : Uuid}
    {r : AtomicRegisterState Ticket} {queue : List (RegisterCommand × Option Ticket)}
    (hr : SystemRun (p.params idx) (AtQuorum C) tr sys) (hi : i ∈ targets p.processesCount)
    (hreg : (sys.process i).register = some r.named) (hcb : r.callback = none) (hfresh : u ∉ sys.opIds)
    (hsector : cmd.header.sectorIdx = idx) :
    ∃ l sys', Answered p C idx sys i (some u) [.invoke u (callOf cmd.content)] l sys' ∧
      (sys'.process i).sector = (sys.process i).sector ∧
      UpSim p C idx sys' i ⟨⟨queue, (clientCommand r cmd t u).1, none⟩, (clientCommand r cmd t u).2, none⟩ := by
  obtain ⟨heffs, hname⟩ := named_clientCommand (r := r) cmd t u
  have hstep : Register.step (p.params idx) sys (.clientCommand i cmd u none) =
      some ({ perform (p.params idx) sys i (some (clientCommand r.named cmd u u).1) (some u)
        (clientCommand r.named cmd u u).2 with opIds := u :: sys.opIds }, (clientCommand r.named cmd u u).2) := by
    simp only [Register.step, hreg]
    rw [if_pos ⟨hi, not_pending hr hreg hcb, hfresh, hsector⟩]
    rfl
  refine ⟨_, _, ⟨.one (by trivial) hstep, fun j hj => ?_, fun u' hu' => ?_, ?_⟩, ?_, ?_, ?_, ?_⟩
  · simp [perform, hj]
  · rcases List.mem_cons.mp hu' with rfl | hold
    · exact Or.inr rfl
    · exact Or.inl hold
  · simp [history, invocationOf, responsesOf, clientCommand_effects]
  · simp [perform, clientCommand_effects, stored]
  · intro _
    simp [perform, hname]
  · intro _ eff heff
    refine effectFor_sent (f := fun _ => u) heff fun m hm => List.mem_append_right _ ?_
    rw [heffs]
    exact hm
  · intro hlags
    rw [clientCommand_effects] at hlags
    cases hlags

/-- `system_command` of a register, run to its end. -/
theorem answered_system {cmd : SystemRegisterCommand} {order : IterOrder UInt8 ReadEntry}
    {r r' : AtomicRegisterState Uuid} {effs : List (Effect Uuid)} {h : List (HEvent Uuid SectorVec)}
    (hr : SystemRun (p.params idx) (AtQuorum C) tr sys)
    (hreg : (sys.process i).register = some r) (hnet : ⟨cmd, i⟩ ∈ sys.network) (hmeets : Meets C r cmd)
    (hsys : systemCommand p.overflowChecks order r cmd = some (r', effs))
    (hh : ∀ a b ev, responsesOf ⟨a, ev, effs, b⟩ = h) (drawn : Option Uuid) :
    ∃ l sys', Answered p C idx sys i drawn h l sys' ∧ (sys'.process i).sector = copyOf r' ∧
      (sys'.process i).register = some r' ∧ ∀ m ∈ sent (p.params idx) effs, m ∈ sys'.network := by
  have hstep : Register.step (p.params idx) sys (.systemCommand i cmd order none) =
      some (perform (p.params idx) sys i (some r') (sys.process i).pending effs, effs) := by
    have hsys' : systemCommand (p.params idx).overflowChecks order r cmd = some (r', effs) := hsys
    simp only [Register.step, hreg, if_pos hnet, hsys']
    rfl
  have hlive := (wellFormed hr).live i r hreg
  refine ⟨_, _, ⟨.one ?_ hstep, fun j hj => ?_, fun u hu => Or.inl hu, ?_⟩, ?_, ?_,
    fun m hm => List.mem_append_right _ hm⟩
  · intro r₀ hr₀
    obtain rfl := Option.some.inj (hreg.symm.trans hr₀)
    exact hmeets
  · simp [perform, hj]
  · simpa [history, invocationOf] using hh ..
  · simp only [perform, Function.update_self]
    exact (systemCommand_handled hsys).durable hlive.sectorIdx hlive.durable
  · simp [perform]

/-- A worker dies, with what it was doing. -/
theorem answered_dies (h : UpSim p C idx sys i x) (drawn : Option Uuid) :
    ∃ l sys', Answered p C idx sys i drawn [] l sys' ∧
      (sys'.process i).sector = (sys.process i).sector ∧ SlotSim p C idx sys' i none := by
  obtain ⟨r, hreg⟩ : ∃ r, (sys.process i).register = some r := by
    cases hl : x.lags with
    | false => exact ⟨_, h.agrees hl⟩
    | true =>
      obtain ⟨r, order, cmd, hlag⟩ := h.lags hl
      exact ⟨r, hlag.register⟩
  have hstep : Register.step (p.params idx) sys (.crash i) =
      some (perform (p.params idx) sys i none none [], []) := by
    simp only [Register.step, hreg]
  refine ⟨_, _, ⟨.one (by trivial) hstep, fun j hj => ?_, fun u hu => Or.inl hu, rfl⟩, ?_, ?_⟩
  · simp [perform, hj]
  · simp [perform, stored]
  · intro r hr
    simp [perform] at hr

/-- A worker starts with what is stored. -/
theorem answered_starts {k : Worker} {sector : Storage.Sector} (hi : i ∈ targets p.processesCount)
    (h : SlotSim p C idx sys i none)
    (hk : k.register = buildAtomicRegister i idx p.processesCount sector)
    (hsector : (sys.process i).sector = sector) (drawn : Option Uuid) :
    ∃ l sys', Answered p C idx sys i drawn [] l sys' ∧
      (sys'.process i).sector = (sys.process i).sector ∧ UpSim p C idx sys' i ⟨k, [], none⟩ := by
  have hnamed : k.register.named = buildAtomicRegister i idx p.processesCount (sys.process i).sector := by
    rw [hk, named_build, hsector]
  have hup : ∀ s : System, (s.process i).register = some k.register.named →
      UpSim p C idx s i ⟨k, [], none⟩ := by
    intro s hs
    exact ⟨fun _ => hs, by simp, by simp [Slot.lags]⟩
  cases hreg : (sys.process i).register with
  | some r =>
    obtain rfl := h r hreg
    exact ⟨[], sys, answered_stutter drawn, rfl, hup sys (by rw [hreg, hnamed])⟩
  | none =>
    have hstep : Register.step (p.params idx) sys (.build i) =
        some (perform (p.params idx) sys i (some k.register.named) none [], []) := by
      rw [hnamed]
      simp only [Register.step, hreg]
      exact if_pos hi
    refine ⟨_, _, ⟨.one (by trivial) hstep, fun j hj => ?_, fun u hu => Or.inl hu, rfl⟩, ?_, hup _ ?_⟩
    · simp [perform, hj]
    · simp [perform, stored]
    · simp [perform]

/-- The worker runs a handler of system commands. If the handler stores, the register system waits. -/
theorem answered_handler {cmd : SystemRegisterCommand} {order : IterOrder UInt8 ReadEntry}
    (queue : List (RegisterCommand × Option Ticket)) {r r' : AtomicRegisterState Ticket}
    {effs : List (Effect Ticket)} (hr : SystemRun (p.params idx) (AtQuorum C) tr sys)
    (hreg : (sys.process i).register = some r.named) (hnet : ⟨cmd, i⟩ ∈ sys.network)
    (hmeets : Meets C r.named cmd) (hC : ∀ r m e, C r m e → TagGrows (p.params idx) r m e)
    (hsys : systemCommand p.overflowChecks order r cmd = some (r', effs)) (drawn : Option Uuid) :
    ∃ l sys', Answered p C idx sys i drawn (responded (r.opId.getD (uuid 0)) (Process.invoked effs)) l sys' ∧
      (sys'.process i).sector = (sys.process i).sector ∧
      UpSim p C idx sys' i ⟨⟨queue, r', Process.invoked effs⟩, effs, none⟩ := by
  have hhandled := systemCommand_handled hsys
  have hnamed := named_systemCommand hsys
  have hgrows : Meets (TagGrows (p.params idx)) r.named cmd :=
    fun v hv hcomp e he hmax => hC _ _ _ (hmeets v hv hcomp e he hmax)
  have hhandled' : Handled (p.params idx).overflowChecks r cmd.header cmd.content r' effs := hhandled
  rcases hhandled'.copies hgrows with ⟨rest, heffs, -, -⟩ | ⟨⟨hval, hts, hwr⟩, hnowrite⟩
  · -- stored only at the rename
    have hsilent := no_callback_of_write hhandled (heffs ▸ List.mem_cons_self ..)
    rw [Process.invoked_eq_none hsilent]
    refine ⟨[], sys, answered_stutter drawn, rfl, ?_⟩
    have hlags : Slot.lags ⟨⟨queue, r', none⟩, effs, none⟩ = true := by rw [heffs]; rfl
    exact ⟨by simp [hlags], by simp [hlags], fun _ => ⟨r.named, order, cmd, hreg, hnamed, hnet, hmeets⟩⟩
  · obtain ⟨l, sys', hans, hsector, hreg', hsent⟩ := answered_system hr hreg hnet hmeets hnamed
      (fun a b ev => responses_eq hhandled (r.opId.getD (uuid 0)) a b ev) drawn
    refine ⟨l, sys', hans, ?_, fun _ => hreg', fun _ eff heff => effectFor_sent heff hsent, ?_⟩
    · rw [hsector, ((wellFormed hr).live i _ hreg).durable]
      simp only [copyOf, AtomicRegisterState.named, AtomicRegisterState.mapCallback, hval, hts, hwr]
    · rw [lags_of_no_write hnowrite]
      simp

/-- The file gets its name: now the handler is run. -/
theorem answered_renames {k : Worker} {sector : Storage.Sector} {todo : List (Effect Ticket)}
    (hr : SystemRun (p.params idx) (AtQuorum C) tr sys)
    (h : UpSim p C idx sys i ⟨k, .write idx sector :: todo, some ⟨sector, .filled⟩⟩) (drawn : Option Uuid) :
    ∃ l sys', Answered p C idx sys i drawn [] l sys' ∧ (sys'.process i).sector = copyOf k.register ∧
      UpSim p C idx sys' i ⟨k, .write idx sector :: todo, some ⟨sector, .renamed⟩⟩ := by
  obtain ⟨r, order, cmd, hlag⟩ := h.lags rfl
  have hnone : ∀ a b ev, responsesOf ⟨a, ev, (Effect.write idx sector :: todo).map
      (Effect.mapCallback fun _ => r.opId.getD (uuid 0)), b⟩ = [] := by
    intro a b ev
    exact responsesOf_eq_nil
      (no_callback_of_write (systemCommand_handled hlag.handler) (List.mem_cons_self ..)) a b ev
  obtain ⟨l, sys', hans, hsector, hreg, hsent⟩ :=
    answered_system hr hlag.register hlag.delivered hlag.meets hlag.handler hnone drawn
  exact ⟨l, sys', hans, hsector, fun _ => hreg, fun _ eff heff => effectFor_sent heff hsent, by simp [Slot.lags]⟩

/-- The operation id that the worker draws for a client command. -/
theorem draws_client {s : ℕ} {u : Uuid} {order : IterOrder UInt8 ReadEntry} {cmd : ClientRegisterCommand}
    {t : Option Ticket} {queue : List (RegisterCommand × Option Ticket)} {r : AtomicRegisterState Ticket}
    {running : Option Process.Running} {todo : List (Effect Ticket)} {writing : Option Storage.Call}
    (hx : w.slot s = some ⟨⟨(.client cmd, t) :: queue, r, running⟩, todo, writing⟩) :
    draws w (.task (.run (.work s u order))) = some u := by
  obtain ⟨dir, phase⟩ := w
  cases phase with
  | up l =>
    obtain ⟨-, hk, -⟩ := Node.slot_eq_some.mp hx
    simp [draws, hk]
  | recovering => cases hx
  | down => cases hx

theorem served_quiet {x x' : Option Slot} (h : Node.Quiet idx.toNat e) : served idx e x x' = [] := by
  unfold served
  split
  · rename_i s u order x x'
    rw [if_neg]
    rintro rfl
    exact h u order rfl
  · rfl

theorem served_none_left {x' : Option Slot} : served idx e none x' = [] := by
  unfold served
  split
  · rename_i heq
    cases heq
  · rfl

theorem served_none_right {x : Option Slot} : served idx e x none = [] := by
  unfold served
  split
  · rename_i heq
    cases heq
  · rfl

/-- The worker is done with an effect that is not, or no more, a store. -/
theorem UpSim.done {k : Worker} {eff : Effect Ticket} {todo : List (Effect Ticket)}
    {writing : Option Storage.Call} (h : UpSim p C idx sys i ⟨k, eff :: todo, writing⟩)
    (hlags : Slot.lags ⟨k, eff :: todo, writing⟩ = false) (hfirst : ∀ j sector, .write j sector ∉ todo) :
    UpSim p C idx sys i ⟨k, todo, none⟩ := by
  refine ⟨fun _ => h.agrees hlags, fun _ eff' heff' => h.sent hlags eff' (List.mem_cons_of_mem _ heff'), ?_⟩
  rw [lags_of_no_write hfirst]
  simp

/-- What the register system does when the slot of the sector takes a turn. -/
theorem answered_turn {x' : Option Slot} {d : Option Storage.Sector} {ledger : Ledger}
    {calls : SectorIdx → Option Storage.Call}
    (hr : SystemRun (p.params idx) (AtQuorum C) tr sys) (hi : i ∈ targets p.processesCount)
    (hC : ∀ r m e, C r m e → TagGrows (p.params idx) r m e) (hmet : MetBy C w e)
    (hkept : Kept (p.node i) w) (hstored : Node.StoredIn w ledger calls)
    (hbound : NodeBound (Sent idx sys) i w) (hfresh : ∀ u ∈ draws w e, u ∉ sys.opIds)
    (hd : Newest (fileAt w.dir idx) d) (h : ProcSim p C idx sys i w)
    (hturn : Turn (p.node i) p.hmacSystemKey w idx.toNat e (w.slot idx.toNat) x') :
    ∃ l sys', Answered p C idx sys i (draws w e) (served idx e (w.slot idx.toNat) x') l sys' ∧
      (sys'.process i).sector = (sys.process i).sector ∧ SlotSim p C idx sys' i x' := by
  have hslot := h.slot
  have hstay : ∀ {x₀ x'}, Node.Quiet idx.toNat e → SlotSim p C idx sys i x' →
      ∃ l sys', Answered p C idx sys i (draws w e) (served idx e x₀ x') l sys' ∧
        (sys'.process i).sector = (sys.process i).sector ∧ SlotSim p C idx sys' i x' := by
    intro x₀ x' hquiet hx'
    rw [served_quiet hquiet]
    exact ⟨[], sys, answered_stutter _, rfl, hx'⟩
  have hfirst : ∀ x, w.slot idx.toNat = some x → ∀ j sector, .write j sector ∉ x.todo.tail := by
    intro x hx
    obtain ⟨l, -, hstores, htodo, -⟩ := hstored.stores hx
    rw [htodo]
    exact hstores.first
  generalize hx : w.slot idx.toNat = x₀ at hturn hslot hfirst ⊢
  cases hturn with
  | empty =>
    rw [served_none_left]
    exact ⟨[], sys, answered_stutter _, rfl, hslot⟩
  | same hquiet => exact hstay hquiet hslot
  | running hquiet _ => exact hstay hquiet (hslot.congr rfl rfl rfl)
  | arrives harrives =>
    refine hstay ?_ (hslot.congr rfl rfl rfl)
    cases harrives <;> simp [Node.Quiet]
  | @client u order cmd t queue r =>
    obtain ⟨-, hsector, hcb⟩ := client_sector hkept.manned hx
    have hdraws : draws w (.task (.run (.work idx.toNat u order))) = some u := draws_client hx
    have hserved : served idx (.task (.run (.work idx.toNat u order)))
        (some ⟨⟨(.client cmd, some t) :: queue, r, none⟩, [], none⟩)
        (some ⟨⟨queue, (clientCommand r cmd t u).1, none⟩, (clientCommand r cmd t u).2, none⟩) =
          [.invoke u (callOf cmd.content)] := by
      simp [served]
    rw [hserved, hdraws]
    exact answered_client hr hi (hslot.agrees rfl) hcb (hfresh u hdraws) hsector
  | @system u order cmd callback queue r r' effs hsys =>
    obtain ⟨hsector, hsent⟩ := hbound.queue idx _ hx cmd callback (List.mem_cons_self ..)
    have hanswered := answered_handler queue hr (hslot.agrees rfl) (hsent hsector) (hmet.meets hx) hC hsys
      (draws w (.task (.run (.work idx.toNat u order))))
    simp only [served, if_pos]
    exact hanswered
  | @done k eff todo hne =>
    refine hstay (by simp [Node.Quiet]) (UpSim.done hslot ?_ (hfirst _ rfl))
    cases eff with
    | write j sector => exact absurd rfl (hne j sector)
    | _ => rfl
  | begins => exact hstay (by simp [Node.Quiet]) (hslot.congr rfl rfl rfl)
  | advance hidx hsector hsector' heq => exact hstay (by simp [Node.Quiet]) (hslot.congr rfl rfl heq)
  | @written k j sector todo call hidx hsector hstage =>
    obtain ⟨u, stage⟩ := call
    obtain rfl : stage = .removed := hstage
    exact hstay (by simp [Node.Quiet]) (UpSim.done hslot rfl (hfirst _ rfl))
  | dies =>
    rw [served_none_right]
    exact answered_dies hslot _
  | @starts da hphase =>
    rw [served_none_left]
    obtain ⟨dir, phase⟩ := w
    obtain rfl : phase = _ := hphase
    have hcopy := Node.copyOf_bootWorker (p := p.node i) hstored.sound hkept.full.files hd
    have hbuild := Node.bootWorker_register (p.node i) ⟨dir, da⟩ idx
    rw [hcopy] at hbuild
    exact answered_starts hi hslot hbuild (h.sector d hd) _

/-- A step of a process is answered in the register system of every sector. -/
theorem procSim_step {o : Unit} (hr : SystemRun (p.params idx) (AtQuorum C) tr sys)
    (hi : i ∈ targets p.processesCount) (hC : ∀ r m e, C r m e → TagGrows (p.params idx) r m e)
    (hmet : MetBy C w e) (hkept : Kept (p.node i) w) (hbound : NodeBound (Sent idx sys) i w)
    (hfresh : ∀ u ∈ draws w e, u ∉ sys.opIds) (h : ProcSim p C idx sys i w)
    (hs : Node.step (p.node i) p.hmacSystemKey w e = some (w', o)) :
    ∃ l sys', Answered p C idx sys i (draws w e) (served idx e (w.slot idx.toNat) (w'.slot idx.toNat)) l sys' ∧
      ProcSim p C idx sys' i w' := by
  obtain ⟨ledger, calls, hstored⟩ := hkept.stored
  obtain ⟨d, hd, -⟩ := hkept.durable idx
  rcases Node.slot_step hstored hkept.full hkept.manned (Node.step_stepped hs) hd with
    ⟨hturn, hd'⟩ | ⟨k, sector, todo, hren⟩
  · obtain ⟨l, sys', hans, hsector, hslot⟩ :=
      answered_turn hr hi hC hmet hkept hstored hbound hfresh hd h hturn
    refine ⟨l, sys', hans, fun d' hd'' => ?_, hslot⟩
    rw [hsector, hd''.unique hd']
    exact h.sector d hd
  · have hslot := h.slot
    rw [hren.before] at hslot
    have hquiet : Node.Quiet idx.toNat e := by simp [Node.Quiet, hren.event]
    obtain ⟨l, sys', hans, hsector, hslot'⟩ := answered_renames hr hslot (draws w e)
    obtain ⟨l', -, hstores, htodo, -⟩ := hstored.stores hren.before
    rw [served_quiet hquiet]
    refine ⟨l, sys', hans, fun d' hd'' => ?_, by rw [hren.after]; exact hslot'⟩
    rw [hsector, hd''.unique hren.newest]
    exact (hstores.head idx sector todo htodo.symm).1.symm

end AtomicDisk.Cluster
