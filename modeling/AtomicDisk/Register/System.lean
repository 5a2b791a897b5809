import AtomicDisk.Register.Handlers
import AtomicDisk.Schemes.Run
import Mathlib.Logic.Function.Basic

/-! The registers of one sector at all processes, connected by a network. Every message ever passed to
    the register client stays in the network and may be delivered any number of times, in any order,
    or never: delays, reordering, duplicates and losses are all runs of this machine. A process may
    crash between any two steps, and inside a handler after any of its effects (an `await` each); it
    then loses the register but not what the sectors manager has stored, and may be rebuilt later.

        clientCommand i ──┐                     ┌── network (a list that only grows)
        systemCommand i ──┼──▶ process i ──es──▶├── sector of i (durable)
        crash i, build i ─┘    register         └── client (callback) -/

namespace AtomicDisk.Register
open Schemes

/-- What is fixed for a run: the number of processes, the sector, and the build profile. -/
structure Params where
  processesCount : UInt8
  sectorIdx : SectorIdx
  overflowChecks : Bool

/-- One process: its register (`none` while it is down), what its storage holds for the sector, and
    the client command of this incarnation whose callback has not been invoked. A callback is named
    by the operation id that the call it was passed to has drawn. -/
structure Process where
  register : Option (AtomicRegisterState Uuid)
  sector : SectorVec × UInt64 × UInt8
  pending : Option Uuid

structure System where
  process : UInt8 → Process
  /-- every message passed to the register client so far -/
  network : List SendMsg
  /-- the operation ids drawn so far -/
  opIds : List Uuid

/-- What can happen next. `cut` is `none` when a handler runs to its end, and `some k` when its
    process crashes in it after the first `k` effects. -/
inductive Event where
  | clientCommand (i : UInt8) (cmd : ClientRegisterCommand) (uuid : Uuid) (cut : Option ℕ)
  | systemCommand (i : UInt8) (cmd : SystemRegisterCommand) (order : IterOrder UInt8 ReadEntry)
      (cut : Option ℕ)
  | crash (i : UInt8)
  | build (i : UInt8)

/-- `1..=processes_count`. -/
def targets (n : UInt8) : List UInt8 := (List.range n.toNat).map fun k => UInt8.ofNat (k + 1)

/-- The messages that effects put into the network; a broadcast goes to every process. -/
def sent (p : Params) (es : List (Effect Uuid)) : List SendMsg :=
  es.flatMap fun
    | .send msg => [msg]
    | .broadcast cmd => (targets p.processesCount).map fun t => ⟨cmd, t⟩
    | _ => []

/-- What the storage holds for the sector after effects. -/
def stored (p : Params) (sector : SectorVec × UInt64 × UInt8) (es : List (Effect Uuid)) :
    SectorVec × UInt64 × UInt8 :=
  es.foldl (fun s e => match e with
    | .write idx s' => if idx = p.sectorIdx then s' else s
    | _ => s) sector

/-- The callback `f` is invoked by one of the effects. -/
def answered (f : Uuid) (es : List (Effect Uuid)) : Bool :=
  es.any fun
    | .callback g _ => decide (g = f)
    | _ => false

/-- Process `i` has effects `es` and goes on with `register`. -/
def perform (p : Params) (w : System) (i : UInt8) (register : Option (AtomicRegisterState Uuid))
    (pending : Option Uuid) (es : List (Effect Uuid)) : System where
  process := Function.update w.process i
    { register
      sector := stored p (w.process i).sector es
      pending := if register.isSome then pending.filter fun f => !answered f es else none }
  network := w.network ++ sent p es
  opIds := w.opIds

/-- A handler has run to its end, or its process has crashed in it. -/
def conclude (cut : Option ℕ) (r : AtomicRegisterState Uuid) (effs : List (Effect Uuid)) :
    Option (AtomicRegisterState Uuid) × List (Effect Uuid) :=
  match cut with
  | none => (some r, effs)
  | some k => (none, effs.take k)

/-- One step of the system, with the effects it has. -/
def step (p : Params) (w : System) : Event → Option (System × List (Effect Uuid))
  | .clientCommand i cmd uuid cut =>
    match (w.process i).register with
    | none => none
    | some r =>
      -- at most one uncompleted command for each instance, and `Uuid::new_v4` never repeats
      if i ∈ targets p.processesCount ∧ (w.process i).pending = none ∧ uuid ∉ w.opIds ∧
          cmd.header.sectorIdx = p.sectorIdx then
        let h := clientCommand r cmd uuid uuid
        let c := conclude cut h.1 h.2
        some ({ perform p w i c.1 (some uuid) c.2 with opIds := uuid :: w.opIds }, c.2)
      else none
  | .systemCommand i cmd order cut =>
    match (w.process i).register with
    | none => none
    | some r =>
      if ⟨cmd, i⟩ ∈ w.network then
        match systemCommand p.overflowChecks order r cmd with
        | none => some (perform p w i none none [], [])
        | some h =>
          let c := conclude cut h.1 h.2
          some (perform p w i c.1 (w.process i).pending c.2, c.2)
      else none
  | .crash i =>
    match (w.process i).register with
    | none => none
    | some _ => some (perform p w i none none [], [])
  | .build i =>
    match (w.process i).register with
    | some _ => none
    | none =>
      if i ∈ targets p.processesCount then
        some (perform p w i (some (buildAtomicRegister i p.sectorIdx p.processesCount
          (w.process i).sector)) none [], [])
      else none

/-- All processes built on an empty storage, nothing sent, no operation started. -/
def init (p : Params) : System where
  process i :=
    { register := if i ∈ targets p.processesCount then
        some (buildAtomicRegister i p.sectorIdx p.processesCount (.zeros, 0, 0)) else none
      sector := (.zeros, 0, 0)
      pending := none }
  network := []
  opIds := []

theorem init_register {p : Params} {i : UInt8} {r : AtomicRegisterState Uuid}
    (h : ((init p).process i).register = some r) : i ∈ targets p.processesCount ∧
      r = buildAtomicRegister i p.sectorIdx p.processesCount (.zeros, 0, 0) := by
  simp only [init] at h
  split at h
  · rename_i hi
    exact ⟨hi, (Option.some.inj h).symm⟩
  · simp at h

/-- Traces of the system. -/
abbrev Trace := List (Entry System Event (List (Effect Uuid)))

/-- Runs of the system whose steps all meet `P`. -/
abbrev SystemRun (p : Params) (P : System → Event → Prop) (tr : Trace) (w : System) : Prop :=
  Run (step p) P (init p) tr w

/-- Process `i` is given the client command `c`, which becomes operation `u`, and handles it. -/
def call (i u : UInt8) (c : ClientRegisterCommandContent) : Event :=
  .clientCommand i ⟨⟨0, 0⟩, c⟩ (uuid u) none

/-- Process `i` receives the message `c` of operation `u` from process `q`, and handles it. -/
def deliver (i q u : UInt8) (c : SystemRegisterCommandContent) : Event :=
  .systemCommand i ⟨⟨q, uuid u, 0⟩, c⟩ .asIs none

/-- A run of the system on given events. -/
theorem run_of_events (p : Params) (P : System → Event → Prop) [∀ w e, Decidable (P w e)]
    (es : List Event) (observe : Trace → System → Bool)
    (h : (exec (step p) (init p) es).any (fun r =>
      decide (∀ x ∈ r.1, P x.pre x.event) && observe r.1 r.2) = true) :
    ∃ tr w, SystemRun p P tr w ∧ observe tr w = true :=
  Run.exists_of_exec (step p) P (init p) es observe h

/-! ### The processes -/

theorem mem_targets {n i : UInt8} : i ∈ targets n ↔ 1 ≤ i.toNat ∧ i.toNat ≤ n.toNat := by
  have hi := UInt8.toNat_lt i
  have hn := UInt8.toNat_lt n
  simp only [targets, List.mem_map, List.mem_range]
  constructor
  · rintro ⟨k, hk, rfl⟩
    rw [UInt8.toNat_ofNat_of_lt' (by simp only [UInt8.size]; omega)]
    omega
  · rintro ⟨h1, h2⟩
    exact ⟨i.toNat - 1, by omega, by rw [Nat.sub_add_cancel h1, UInt8.ofNat_toNat]⟩

theorem targets_nodup (n : UInt8) : (targets n).Nodup := by
  have hn := UInt8.toNat_lt n
  refine List.Nodup.map_on (fun a ha b hb hab => ?_) List.nodup_range
  rw [List.mem_range] at ha hb
  have := congrArg UInt8.toNat hab
  rw [UInt8.toNat_ofNat_of_lt' (by simp only [UInt8.size]; omega),
    UInt8.toNat_ofNat_of_lt' (by simp only [UInt8.size]; omega)] at this
  omega

/-- The processes as a finite set of `processes_count` elements. -/
def processes (p : Params) : Finset UInt8 := (targets p.processesCount).toFinset

theorem mem_processes {p : Params} {i : UInt8} : i ∈ processes p ↔ i ∈ targets p.processesCount := by
  simp [processes]

theorem card_processes (p : Params) : (processes p).card = p.processesCount.toNat := by
  rw [processes, List.toFinset_card_of_nodup (targets_nodup _), targets, List.length_map,
    List.length_range]

/-! ### What a step can do -/

/-- A step of the system. -/
abbrev Step := Entry System Event (List (Effect Uuid))

/-- In step `x` process `i` has had effects `es` and has gone on with the register `reg`. -/
structure Moved (p : Params) (x : Step) (i : UInt8) (reg : Option (AtomicRegisterState Uuid))
    (pend : Option Uuid) (es : List (Effect Uuid)) : Prop where
  register : (x.post.process i).register = reg
  sector : (x.post.process i).sector = stored p (x.pre.process i).sector es
  pending : (x.post.process i).pending =
    if reg.isSome then pend.filter fun f => !answered f es else none
  other : ∀ j, j ≠ i → x.post.process j = x.pre.process j
  network : x.post.network = x.pre.network ++ sent p es
  out : x.out = es

/-- How a handler ends: it has all its effects, or its process crashes after some of them. -/
def Concluded (r : AtomicRegisterState Uuid) (effs : List (Effect Uuid))
    (reg : Option (AtomicRegisterState Uuid)) (es : List (Effect Uuid)) : Prop :=
  reg = some r ∧ es = effs ∨ reg = none ∧ es <+: effs

/-- Step `x` is a call of `client_command` on register `r` of process `i`. -/
structure Invocation (p : Params) (x : Step) (i : UInt8) (cmd : ClientRegisterCommand) (id : Uuid)
    (r : AtomicRegisterState Uuid) : Prop where
  event : ∃ cut, x.event = .clientCommand i cmd id cut
  register : (x.pre.process i).register = some r
  process : i ∈ targets p.processesCount
  idle : (x.pre.process i).pending = none
  fresh : id ∉ x.pre.opIds
  sectorIdx : cmd.header.sectorIdx = p.sectorIdx
  moved : ∃ reg, Concluded (clientCommand r cmd id id).1 (clientCommand r cmd id id).2 reg x.out ∧
    Moved p x i reg (some id) x.out
  opIds : x.post.opIds = id :: x.pre.opIds

/-- Step `x` is the delivery of `cmd` to register `r` of process `i`, whose handler takes the branch
    that leaves `r'` and has the effects `effs`. -/
structure Delivery (p : Params) (x : Step) (i : UInt8) (cmd : SystemRegisterCommand)
    (r r' : AtomicRegisterState Uuid) (effs : List (Effect Uuid)) : Prop where
  event : ∃ order cut, x.event = .systemCommand i cmd order cut
  register : (x.pre.process i).register = some r
  delivered : ⟨cmd, i⟩ ∈ x.pre.network
  handled : Handled p.overflowChecks r cmd.header cmd.content r' effs
  moved : ∃ reg, Concluded r' effs reg x.out ∧ Moved p x i reg (x.pre.process i).pending x.out
  opIds : x.post.opIds = x.pre.opIds

/-- Step `x` has no effects: process `i` crashes, or its register panics, or it is rebuilt. -/
structure Restart (p : Params) (x : Step) (i : UInt8) : Prop where
  event : ∀ j cmd id cut, x.event ≠ .clientCommand j cmd id cut
  moved : Moved p x i none none [] ∨ i ∈ targets p.processesCount ∧
    Moved p x i (some (buildAtomicRegister i p.sectorIdx p.processesCount
      (x.pre.process i).sector)) none []
  opIds : x.post.opIds = x.pre.opIds

/-- The branches of a step. -/
inductive Stepped (p : Params) (x : Step) : Prop
  | client {i cmd id r} : Invocation p x i cmd id r → Stepped p x
  | system {i cmd r r' effs} : Delivery p x i cmd r r' effs → Stepped p x
  | restart {i} : Restart p x i → Stepped p x

theorem moved_of_perform {p : Params} {x : Step} {i : UInt8}
    {reg : Option (AtomicRegisterState Uuid)} {pend : Option Uuid} {es : List (Effect Uuid)}
    (hp : x.post.process = (perform p x.pre i reg pend es).process)
    (hn : x.post.network = (perform p x.pre i reg pend es).network) (ho : x.out = es) :
    Moved p x i reg pend es := by
  refine ⟨?_, ?_, ?_, ?_, hn, ho⟩
  · simp [hp, perform]
  · simp [hp, perform]
  · simp [hp, perform]
  · intro j hj; simp [hp, perform, hj]

theorem conclude_concluded (cut : Option ℕ) (r : AtomicRegisterState Uuid)
    (effs : List (Effect Uuid)) :
    Concluded r effs (conclude cut r effs).1 (conclude cut r effs).2 := by
  cases cut with
  | none => exact Or.inl ⟨rfl, rfl⟩
  | some k => exact Or.inr ⟨rfl, List.take_prefix k effs⟩

theorem step_stepped {p : Params} {x : Step} (h : step p x.pre x.event = some (x.post, x.out)) :
    Stepped p x := by
  obtain ⟨w, e, es, w'⟩ := x
  cases e with
  | clientCommand i cmd uuid cut =>
    cases hr : (w.process i).register with
    | none => simp [step, hr] at h
    | some r =>
      simp only [step, hr] at h
      split at h
      · rename_i hguard
        obtain ⟨rfl, rfl⟩ := Prod.mk.inj (Option.some.inj h)
        exact .client ⟨⟨cut, rfl⟩, hr, hguard.1, hguard.2.1, hguard.2.2.1, hguard.2.2.2,
          ⟨_, conclude_concluded .., moved_of_perform rfl rfl rfl⟩, rfl⟩
      · simp at h
  | systemCommand i cmd order cut =>
    cases hr : (w.process i).register with
    | none => simp [step, hr] at h
    | some r =>
      simp only [step, hr] at h
      split at h
      · rename_i hnet
        cases hs : systemCommand p.overflowChecks order r cmd with
        | none =>
          rw [hs] at h
          obtain ⟨rfl, rfl⟩ := Prod.mk.inj (Option.some.inj h)
          exact .restart ⟨by simp, Or.inl (moved_of_perform rfl rfl rfl), rfl⟩
        | some y =>
          rw [hs] at h
          obtain ⟨rfl, rfl⟩ := Prod.mk.inj (Option.some.inj h)
          exact .system ⟨⟨order, cut, rfl⟩, hr, hnet, systemCommand_handled hs,
            ⟨_, conclude_concluded .., moved_of_perform rfl rfl rfl⟩, rfl⟩
      · simp at h
  | crash i =>
    cases hr : (w.process i).register with
    | none => simp [step, hr] at h
    | some r =>
      simp only [step, hr] at h
      obtain ⟨rfl, rfl⟩ := Prod.mk.inj (Option.some.inj h)
      exact .restart ⟨by simp, Or.inl (moved_of_perform rfl rfl rfl), rfl⟩
  | build i =>
    cases hr : (w.process i).register with
    | some r => simp [step, hr] at h
    | none =>
      simp only [step, hr] at h
      split at h
      · rename_i hi
        obtain ⟨rfl, rfl⟩ := Prod.mk.inj (Option.some.inj h)
        exact .restart ⟨by simp, Or.inr ⟨hi, moved_of_perform rfl rfl rfl⟩, rfl⟩
      · simp at h

/-! ### Consequences used throughout -/

section facts

variable {p : Params} {x : Step} {i : UInt8} {id : Uuid} {r r' r'' : AtomicRegisterState Uuid}
  {effs : List (Effect Uuid)}

theorem Concluded.prefixOf {reg : Option (AtomicRegisterState Uuid)} {es : List (Effect Uuid)}
    (h : Concluded r effs reg es) : es <+: effs := by
  rcases h with ⟨-, rfl⟩ | ⟨-, h⟩
  · exact List.prefix_refl _
  · exact h

theorem Delivery.effects {cmd : SystemRegisterCommand} (h : Delivery p x i cmd r r' effs) :
    x.out <+: effs := by
  obtain ⟨reg, hconc, -⟩ := h.moved
  exact hconc.prefixOf

/-- A register that is still up after the handler is in the state it leaves. -/
theorem Delivery.up {cmd : SystemRegisterCommand} (h : Delivery p x i cmd r r' effs)
    (hr : (x.post.process i).register = some r'') : r'' = r' ∧ x.out = effs := by
  obtain ⟨reg, hconc, hm⟩ := h.moved
  rw [hm.register] at hr
  rcases hconc with ⟨rfl, hes⟩ | ⟨rfl, -⟩
  · exact ⟨(Option.some.inj hr).symm, hes⟩
  · simp at hr

theorem Delivery.sector {cmd : SystemRegisterCommand} (h : Delivery p x i cmd r r' effs) :
    (x.post.process i).sector = stored p (x.pre.process i).sector x.out := by
  obtain ⟨reg, -, hm⟩ := h.moved
  exact hm.sector

theorem Delivery.other {cmd : SystemRegisterCommand} (h : Delivery p x i cmd r r' effs)
    {j : UInt8} (hj : j ≠ i) : x.post.process j = x.pre.process j := by
  obtain ⟨reg, -, hm⟩ := h.moved
  exact hm.other j hj

theorem Delivery.network {cmd : SystemRegisterCommand} (h : Delivery p x i cmd r r' effs) :
    x.post.network = x.pre.network ++ sent p x.out := by
  obtain ⟨reg, -, hm⟩ := h.moved
  exact hm.network

theorem Invocation.effects {cmd : ClientRegisterCommand} (h : Invocation p x i cmd id r) :
    x.out <+: [.broadcast ⟨⟨r.selfIdent, id, cmd.header.sectorIdx⟩, .readProc⟩] := by
  obtain ⟨reg, hconc, -⟩ := h.moved
  rw [← clientCommand_effects]
  exact hconc.prefixOf

theorem Invocation.up {cmd : ClientRegisterCommand} (h : Invocation p x i cmd id r)
    (hr : (x.post.process i).register = some r') : r' = (clientCommand r cmd id id).1 := by
  obtain ⟨reg, hconc, hm⟩ := h.moved
  rw [hm.register] at hr
  rcases hconc with ⟨rfl, -⟩ | ⟨rfl, -⟩
  · exact (Option.some.inj hr).symm
  · simp at hr

theorem Invocation.other {cmd : ClientRegisterCommand} (h : Invocation p x i cmd id r)
    {j : UInt8} (hj : j ≠ i) : x.post.process j = x.pre.process j := by
  obtain ⟨reg, -, hm⟩ := h.moved
  exact hm.other j hj

theorem Invocation.network {cmd : ClientRegisterCommand} (h : Invocation p x i cmd id r) :
    x.post.network = x.pre.network ++ sent p x.out := by
  obtain ⟨reg, -, hm⟩ := h.moved
  exact hm.network

theorem Invocation.sector {cmd : ClientRegisterCommand} (h : Invocation p x i cmd id r) :
    (x.post.process i).sector = (x.pre.process i).sector := by
  obtain ⟨reg, -, hm⟩ := h.moved
  rw [hm.sector]
  rcases List.prefix_cons_iff.mp h.effects with hout | ⟨l, hout, hl⟩
  · rw [hout]; rfl
  · rw [hout, List.prefix_nil.mp hl]; rfl

theorem Restart.out (h : Restart p x i) : x.out = [] := by
  rcases h.moved with hm | ⟨-, hm⟩ <;> exact hm.out

theorem Restart.other (h : Restart p x i) {j : UInt8} (hj : j ≠ i) :
    x.post.process j = x.pre.process j := by
  rcases h.moved with hm | ⟨-, hm⟩ <;> exact hm.other j hj

theorem Restart.network (h : Restart p x i) : x.post.network = x.pre.network := by
  rcases h.moved with hm | ⟨-, hm⟩ <;> simpa [sent] using hm.network

theorem Restart.sector (h : Restart p x i) : (x.post.process i).sector = (x.pre.process i).sector := by
  rcases h.moved with hm | ⟨-, hm⟩ <;> exact hm.sector

/-- A register that is up after a restart has just been built. -/
theorem Restart.up (h : Restart p x i) (hr : (x.post.process i).register = some r) :
    r = buildAtomicRegister i p.sectorIdx p.processesCount (x.pre.process i).sector := by
  rcases h.moved with hm | ⟨-, hm⟩
  · rw [hm.register] at hr; simp at hr
  · rw [hm.register] at hr; exact (Option.some.inj hr).symm

/-- Where the register of a process that is up after a step comes from. -/
theorem register_after (hs : step p x.pre x.event = some (x.post, x.out)) {j : UInt8}
    (hr : (x.post.process j).register = some r') :
    (x.pre.process j).register = some r' ∨
      (∃ cmd id r, Invocation p x j cmd id r ∧ r' = (clientCommand r cmd id id).1) ∨
      (∃ cmd r, Delivery p x j cmd r r' x.out) ∨
      r' = buildAtomicRegister j p.sectorIdx p.processesCount (x.pre.process j).sector := by
  cases step_stepped hs with
  | @client i cmd id r hi =>
    rcases eq_or_ne j i with rfl | hne
    · exact Or.inr (Or.inl ⟨cmd, id, r, hi, hi.up hr⟩)
    · rw [hi.other hne] at hr; exact Or.inl hr
  | @system i cmd r r₁ effs hd =>
    rcases eq_or_ne j i with rfl | hne
    · obtain ⟨rfl, hout⟩ := hd.up hr
      rw [hout]
      exact Or.inr (Or.inr (Or.inl ⟨cmd, r, hd⟩))
    · rw [hd.other hne] at hr; exact Or.inl hr
  | @restart i hq =>
    rcases eq_or_ne j i with rfl | hne
    · exact Or.inr (Or.inr (Or.inr (hq.up hr)))
    · rw [hq.other hne] at hr; exact Or.inl hr

/-- Where an uncompleted command of a process comes from. -/
theorem pending_after (hs : step p x.pre x.event = some (x.post, x.out)) {j : UInt8}
    (hp : (x.post.process j).pending = some id) :
    x.post.process j = x.pre.process j ∨
      (∃ cmd r, Invocation p x j cmd id r ∧
        (x.post.process j).register = some (clientCommand r cmd id id).1) ∨
      ∃ cmd r r', Delivery p x j cmd r r' x.out ∧ (x.pre.process j).pending = some id ∧
        (x.post.process j).register = some r' := by
  cases step_stepped hs with
  | @client i cmd id' r hi =>
    rcases eq_or_ne j i with rfl | hne
    · obtain ⟨reg, hconc, hm⟩ := hi.moved
      rw [hm.pending] at hp
      obtain ⟨rfl, -⟩ | ⟨rfl, -⟩ := hconc
      · obtain ⟨rfl, -⟩ : id' = id ∧ _ := by simpa [Option.filter_eq_some_iff] using hp
        exact Or.inr (Or.inl ⟨cmd, r, hi, hm.register⟩)
      · simp at hp
    · exact Or.inl (hi.other hne)
  | @system i cmd r r₁ effs hd =>
    rcases eq_or_ne j i with rfl | hne
    · obtain ⟨reg, hconc, hm⟩ := hd.moved
      rw [hm.pending] at hp
      obtain ⟨rfl, hout⟩ | ⟨rfl, -⟩ := hconc
      · obtain ⟨hpend, -⟩ : (x.pre.process j).pending = some id ∧ _ := by
          simpa [Option.filter_eq_some_iff] using hp
        rw [hout]
        exact Or.inr (Or.inr ⟨cmd, r, r₁, hd, hpend, hm.register⟩)
      · simp at hp
    · exact Or.inl (hd.other hne)
  | @restart i hq =>
    rcases eq_or_ne j i with rfl | hne
    · rcases hq.moved with hm | ⟨-, hm⟩ <;> simp [hm.pending] at hp
    · exact Or.inl (hq.other hne)

/-- Only the delivery of a message to a process touches its storage. -/
theorem sector_after (hs : step p x.pre x.event = some (x.post, x.out)) (j : UInt8) :
    (x.post.process j).sector = (x.pre.process j).sector ∨
      ∃ cmd r r' effs, Delivery p x j cmd r r' effs := by
  cases step_stepped hs with
  | @client i cmd id r hi =>
    rcases eq_or_ne j i with rfl | hne
    · exact Or.inl hi.sector
    · rw [hi.other hne]; exact Or.inl rfl
  | @system i cmd r r₁ effs hd =>
    rcases eq_or_ne j i with rfl | hne
    · exact Or.inr ⟨cmd, r, r₁, effs, hd⟩
    · rw [hd.other hne]; exact Or.inl rfl
  | @restart i hq =>
    rcases eq_or_ne j i with rfl | hne
    · exact Or.inl hq.sector
    · rw [hq.other hne]; exact Or.inl rfl

end facts

end AtomicDisk.Register
