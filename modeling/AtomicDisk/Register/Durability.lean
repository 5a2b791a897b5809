import AtomicDisk.Register.Handlers
import AtomicDisk.Schemes.Run

/-! Durable before disclosed. One register over a sectors manager that is an atomic durable map, given
    any commands at all, with a crash possible at every `await`. A handler first changes the register's
    memory and then has its effects, one at a time; a crash between two of them loses the memory and the
    effects that are left, but not what has been stored.

        command ──▶ memory changes ──▶ store ──▶ send or broadcast
                                    ▲         ▲
                                  crash     crash      build: memory := durable

    Whatever tells others about the register's copy comes after the store of that copy. -/

namespace AtomicDisk.Register.Single
open Schemes

/-- What is fixed for a run. -/
structure Config where
  selfIdent : UInt8
  sectorIdx : SectorIdx
  processesCount : UInt8
  overflowChecks : Bool

structure World (κ : Type) where
  /-- `none` while the process is down -/
  memory : Option (AtomicRegisterState κ)
  /-- the system command that is being handled, or was handled last -/
  handling : Option SystemRegisterCommand
  /-- the effects that the handler has still to have -/
  todo : List (Effect κ)
  /-- what the sectors manager holds -/
  durable : SectorIdx → SectorVec × UInt64 × UInt8

inductive Event (κ : Type) where
  | client (cmd : ClientRegisterCommand) (callback : κ) (uuid : Uuid)
  | system (cmd : SystemRegisterCommand) (order : IterOrder UInt8 ReadEntry)
  /-- the next effect of the handler -/
  | effect
  | crash
  | build
  /-- another register stores its sector -/
  | elsewhere (idx : SectorIdx) (sector : SectorVec × UInt64 × UInt8)

variable {κ : Type}

/-- What an effect does to the sectors manager. -/
def store (durable : SectorIdx → SectorVec × UInt64 × UInt8) :
    Effect κ → SectorIdx → SectorVec × UInt64 × UInt8
  | .write idx sector => Function.update durable idx sector
  | _ => durable

/-- One step, with the effect it has. -/
def step (p : Config) (w : World κ) : Event κ → Option (World κ × Option (Effect κ))
  | .client cmd callback uuid =>
    match w.memory, w.todo with
    | some r, [] =>
      let h := clientCommand r cmd callback uuid
      some ({ w with memory := some h.1, handling := none, todo := h.2 }, none)
    | _, _ => none
  | .system cmd order =>
    match w.memory, w.todo with
    | some r, [] =>
      match systemCommand p.overflowChecks order r cmd with
      | none => some ({ w with memory := none, handling := none }, none)
      | some h => some ({ w with memory := some h.1, handling := some cmd, todo := h.2 }, none)
    | _, _ => none
  | .effect =>
    match w.memory, w.todo with
    | some _, e :: todo => some ({ w with todo, durable := store w.durable e }, some e)
    | _, _ => none
  | .crash =>
    w.memory.map fun _ => ({ w with memory := none, handling := none, todo := [] }, none)
  | .build =>
    match w.memory with
    | none =>
      let r := buildAtomicRegister p.selfIdent p.sectorIdx p.processesCount (w.durable p.sectorIdx)
      some ({ w with memory := some r }, none)
    | some _ => none
  | .elsewhere idx sector =>
    if idx ≠ p.sectorIdx then
      some ({ w with durable := Function.update w.durable idx sector }, none)
    else none

/-- Nothing is up; the sectors manager holds anything. -/
def init (durable : SectorIdx → SectorVec × UInt64 × UInt8) : World κ := ⟨none, none, [], durable⟩

abbrev Step (κ : Type) := Entry (World κ) (Event κ) (Option (Effect κ))

/-- Runs over a sectors manager that holds `durable` at first. -/
abbrev RegisterRun (p : Config) (durable : SectorIdx → SectorVec × UInt64 × UInt8) (tr : List (Step κ))
    (w : World κ) : Prop :=
  Run (step p) (fun _ _ => True) (init durable) tr w

/-! ### The effects of a handler -/

/-- The register's copy of the sector. -/
def copy (r : AtomicRegisterState κ) : SectorVec × UInt64 × UInt8 := (r.val, r.ts, r.wr)

/-- What the effect after the store, if there is one, says about the register. -/
inductive Tells (r : AtomicRegisterState κ) (handling : Option SystemRegisterCommand) : Effect κ → Prop
  | value {h : SystemCommandHeader} {q : UInt8} : Tells r handling (.send ⟨⟨h, .value r.ts r.wr r.val⟩, q⟩)
  | ack {h : SystemCommandHeader} {t : UInt64} {wr : UInt8} {d : SectorVec} :
      handling = some ⟨h, .writeProc t wr d⟩ → tag t wr ≤ tag r.ts r.wr →
      Tells r handling (.send ⟨⟨replyHeader r h, .ack⟩, h.processIdentifier⟩)
  | writeProc {h : SystemCommandHeader} {t : UInt64} {wr : UInt8} {d : SectorVec} :
      (r.reading = false → (d, t, wr) = copy r) → Tells r handling (.broadcast ⟨h, .writeProc t wr d⟩)
  | readProc {h : SystemCommandHeader} : Tells r handling (.broadcast ⟨h, .readProc⟩)
  | callback {f : κ} {opSuccess : OperationSuccess} : Tells r handling (.callback f opSuccess)

theorem Tells.store {r : AtomicRegisterState κ} {handling : Option SystemRegisterCommand} {e : Effect κ}
    (h : Tells r handling e) (durable : SectorIdx → SectorVec × UInt64 × UInt8) :
    Single.store durable e = durable := by
  cases h <;> rfl

/-- What a handler has still to do, with what is stored for the sector: the copy is stored, or is stored
    before anything is told. -/
inductive Ahead (p : Config) (r : AtomicRegisterState κ) (handling : Option SystemRegisterCommand)
    (stored : SectorVec × UInt64 × UInt8) : List (Effect κ) → Prop
  | nothing : stored = copy r → Ahead p r handling stored []
  | tell {e : Effect κ} : stored = copy r → Tells r handling e → Ahead p r handling stored [e]
  | store {e : Effect κ} : Tells r handling e →
      Ahead p r handling stored [.write p.sectorIdx (copy r), e]

variable {p : Config} {r r' : AtomicRegisterState κ} {stored : SectorVec × UInt64 × UInt8}
  {cmd : SystemRegisterCommand} {effs : List (Effect κ)}

/-- Every branch of `system_command` is of this form. -/
theorem Ahead.handled (hh : Handled p.overflowChecks r cmd.header cmd.content r' effs)
    (hsec : r.sectorIdx = p.sectorIdx) (hst : stored = copy r) : Ahead p r' (some cmd) stored effs := by
  obtain ⟨h, c⟩ := cmd
  cases hh with
  | readProc => exact .tell hst .value
  | valueStale | ackStale => exact .nothing hst
  | valueCollect | ackCollect | ackReadUnheard | ackWriteUnheard => exact .nothing hst
  | valueRead _ _ _ hread => exact .tell hst (.writeProc fun hr => by simp [hread] at hr)
  | valueWrite =>
    rw [hsec]
    exact .store (.writeProc fun _ => rfl)
  | writeProcAdopt hlt =>
    rw [hsec]
    exact .store (.ack rfl (le_refl _))
  | writeProcKeep hle => exact .tell hst (.ack rfl hle)
  | ackRead | ackWrite => exact .tell hst .callback

theorem Ahead.client (hst : stored = copy r) (c : ClientRegisterCommand) (f : κ) (u : Uuid) :
    Ahead p (clientCommand r c f u).1 none stored (clientCommand r c f u).2 := by
  rw [clientCommand_effects]
  refine .tell ?_ .readProc
  obtain ⟨hts, hwr, hval⟩ := clientCommand_copy r c f u
  rw [hst, copy, copy, hts, hwr, hval]

/-- The next effect: the copy is stored by then if the effect tells of it. -/
theorem Ahead.tells {e : Effect κ} {todo : List (Effect κ)} {handling : Option SystemRegisterCommand}
    (h : Ahead p r handling stored (e :: todo)) :
    e = .write p.sectorIdx (copy r) ∨ stored = copy r ∧ Tells r handling e := by
  cases h with
  | tell hst htells => exact Or.inr ⟨hst, htells⟩
  | store => exact Or.inl rfl

/-! ### Runs -/

/-- A register that is up is the one of its sector, with a handler ahead as above; one that is down has
    nothing to do. -/
structure Consistent (p : Config) (w : World κ) : Prop where
  up : ∀ r, w.memory = some r → r.sectorIdx = p.sectorIdx ∧
    Ahead p r w.handling (w.durable p.sectorIdx) w.todo
  down : w.memory = none → w.todo = []

variable {w w' : World κ} {ev : Event κ} {out : Option (Effect κ)}

/-- A register between two handlers has stored its copy. -/
theorem Consistent.rest (h : Consistent p w) (hr : w.memory = some r) (htodo : w.todo = []) :
    r.sectorIdx = p.sectorIdx ∧ w.durable p.sectorIdx = copy r := by
  obtain ⟨hsec, hahead⟩ := h.up r hr
  rw [htodo] at hahead
  cases hahead with
  | nothing hst => exact ⟨hsec, hst⟩

theorem Consistent.effect (h : Consistent p w) (hr : w.memory = some r) {e : Effect κ}
    {todo : List (Effect κ)} (htodo : w.todo = e :: todo) :
    Consistent p { w with todo, durable := store w.durable e } := by
  refine ⟨fun r' hr' => ?_, fun hnone => absurd (hr.symm.trans hnone) (by simp)⟩
  obtain ⟨hsec, hahead⟩ := h.up r' hr'
  refine ⟨hsec, ?_⟩
  rw [htodo] at hahead
  cases hahead with
  | tell hst htells =>
    rw [htells.store]
    exact .nothing hst
  | store htells => exact .tell (by simp [Single.store]) htells

theorem consistent_step (h : Consistent p w) (hs : step p w ev = some (w', out)) : Consistent p w' := by
  have hdown : Consistent p (⟨none, none, [], w.durable⟩ : World κ) := ⟨by simp, fun _ => rfl⟩
  cases ev with
  | client c f u =>
    simp only [step] at hs
    split at hs
    · rename_i r hr htodo
      obtain ⟨rfl, -⟩ := Prod.mk.inj (Option.some.inj hs)
      obtain ⟨hsec, hst⟩ := h.rest hr htodo
      refine ⟨fun r' hr' => ?_, by simp⟩
      obtain rfl := Option.some.inj hr'
      exact ⟨(clientCommand_identity r c f u).2.2.trans hsec, .client hst c f u⟩
    · simp at hs
  | system cmd order =>
    simp only [step] at hs
    split at hs
    · rename_i r hr htodo
      obtain ⟨hsec, hst⟩ := h.rest hr htodo
      split at hs
      · obtain ⟨rfl, -⟩ := Prod.mk.inj (Option.some.inj hs)
        rw [htodo]
        exact hdown
      · rename_i y hcmd
        obtain ⟨rfl, -⟩ := Prod.mk.inj (Option.some.inj hs)
        have hh := systemCommand_handled hcmd
        refine ⟨fun r' hr' => ?_, by simp⟩
        obtain rfl := Option.some.inj hr'
        exact ⟨hh.identity.2.2.trans hsec, .handled hh hsec hst⟩
    · simp at hs
  | effect =>
    simp only [step] at hs
    split at hs
    · rename_i r e todo hr htodo
      obtain ⟨rfl, -⟩ := Prod.mk.inj (Option.some.inj hs)
      exact h.effect hr htodo
    · simp at hs
  | crash =>
    obtain ⟨r, -, hw⟩ := Option.map_eq_some_iff.mp hs
    obtain ⟨rfl, -⟩ := Prod.mk.inj hw
    exact hdown
  | build =>
    simp only [step] at hs
    split at hs
    · rename_i hnone
      obtain ⟨rfl, -⟩ := Prod.mk.inj (Option.some.inj hs)
      refine ⟨fun r' hr' => ?_, by simp⟩
      obtain rfl := Option.some.inj hr'
      refine ⟨rfl, ?_⟩
      rw [h.down hnone]
      exact .nothing rfl
    · simp at hs
  | elsewhere idx sector =>
    simp only [step] at hs
    split at hs
    · rename_i hne
      obtain ⟨rfl, -⟩ := Prod.mk.inj (Option.some.inj hs)
      have hsame : Function.update w.durable idx sector p.sectorIdx = w.durable p.sectorIdx :=
        Function.update_of_ne (Ne.symm hne) ..
      refine ⟨fun r' hr' => ?_, h.down⟩
      dsimp only
      rw [hsame]
      exact h.up r' hr'
    · simp at hs

theorem consistent {durable : SectorIdx → SectorVec × UInt64 × UInt8} {tr : List (Step κ)}
    (h : RegisterRun p durable tr w) : Consistent p w := by
  refine h.invariant (I := fun _ w => Consistent p w) ⟨by simp [init], fun _ => rfl⟩ ?_
  intro tr x _ ih _ hs
  exact consistent_step ih hs

/-- The effect of a step is the next one of the handler. -/
theorem step_out {e : Effect κ} (hs : step p w ev = some (w', some e)) :
    ∃ r todo, w.memory = some r ∧ w.todo = e :: todo := by
  cases ev with
  | effect =>
    simp only [step] at hs
    split at hs
    · rename_i r e' todo hr htodo
      obtain ⟨-, he⟩ := Prod.mk.inj (Option.some.inj hs)
      obtain rfl := Option.some.inj he
      exact ⟨r, todo, hr, htodo⟩
    · simp at hs
  | crash =>
    obtain ⟨r, -, hw⟩ := Option.map_eq_some_iff.mp hs
    simp at hw
  | client | build | elsewhere =>
    simp only [step] at hs
    split at hs <;> simp at hs
  | system =>
    simp only [step] at hs
    split at hs
    · split at hs <;> simp at hs
    · simp at hs

/-- CORRECT (durable before disclosed): in every run, with a crash at any `await`, whenever the register
    sends a VALUE, acknowledges a WRITE_PROC or broadcasts a WRITE_PROC, what is stored for its sector is its
    copy in memory; the VALUE carries that copy, the acknowledged WRITE_PROC has no larger tag, and the
    WRITE_PROC of a write carries that copy. -/
theorem durable_before_disclosed {durable : SectorIdx → SectorVec × UInt64 × UInt8} {tr : List (Step κ)}
    (h : RegisterRun p durable tr w) {x : Step κ} (hx : x ∈ tr) {e : Effect κ} (he : x.out = some e) :
    ∃ r, x.pre.memory = some r ∧
      (∀ hd t wr d q, e = .send ⟨⟨hd, .value t wr d⟩, q⟩ →
        x.pre.durable p.sectorIdx = (r.val, r.ts, r.wr) ∧ (d, t, wr) = (r.val, r.ts, r.wr)) ∧
      (∀ hd q, e = .send ⟨⟨hd, .ack⟩, q⟩ →
        x.pre.durable p.sectorIdx = (r.val, r.ts, r.wr) ∧
          ∃ hd' t wr d, x.pre.handling = some ⟨hd', .writeProc t wr d⟩ ∧ hd.msgIdent = hd'.msgIdent ∧
            q = hd'.processIdentifier ∧ tag t wr ≤ tag r.ts r.wr) ∧
      (∀ hd t wr d, e = .broadcast ⟨hd, .writeProc t wr d⟩ →
        x.pre.durable p.sectorIdx = (r.val, r.ts, r.wr) ∧
          (r.reading = false → (d, t, wr) = (r.val, r.ts, r.wr))) := by
  obtain ⟨l, hrun, -, hs⟩ := h.entry hx
  rw [he] at hs
  obtain ⟨r, todo, hr, htodo⟩ := step_out hs
  obtain ⟨-, hahead⟩ := (consistent hrun).up r hr
  rw [htodo] at hahead
  refine ⟨r, hr, ?_⟩
  rcases hahead.tells with rfl | ⟨hst, htells⟩
  · simp
  · cases htells with
    | value =>
      refine ⟨fun hd t wr d q heq => ⟨hst, ?_⟩, by simp, by simp⟩
      simp only [Effect.send.injEq, SendMsg.mk.injEq, SystemRegisterCommand.mk.injEq,
        SystemRegisterCommandContent.value.injEq] at heq
      rw [heq.1.2.1, heq.1.2.2.1, heq.1.2.2.2]
    | @ack hd' t wr d hhand hle =>
      refine ⟨by simp, fun hd q heq => ⟨hst, hd', t, wr, d, hhand, ?_, ?_, hle⟩, by simp⟩
      · simp only [Effect.send.injEq, SendMsg.mk.injEq, SystemRegisterCommand.mk.injEq] at heq
        rw [← heq.1.1]
        rfl
      · simp only [Effect.send.injEq, SendMsg.mk.injEq] at heq
        exact heq.2.symm
    | writeProc hcopy =>
      refine ⟨by simp, by simp, fun hd t wr d heq => ⟨hst, fun hread => ?_⟩⟩
      simp only [Effect.broadcast.injEq, SystemRegisterCommand.mk.injEq,
        SystemRegisterCommandContent.writeProc.injEq] at heq
      rw [← heq.2.1, ← heq.2.2.1, ← heq.2.2.2]
      exact hcopy hread
    | readProc => simp
    | callback => simp

section run

-- sectors of 4096 bytes are compared byte by byte when a concrete run is replayed
set_option maxRecDepth 40000

/-- The effect broadcasts the command. -/
def broadcasts (cmd : SystemRegisterCommand) : Option (Effect Unit) → Bool
  | some (.broadcast cmd') => decide (cmd' = cmd)
  | _ => false

theorem broadcasts_iff {cmd : SystemRegisterCommand} {out : Option (Effect Unit)} :
    broadcasts cmd out = true ↔ out = some (.broadcast cmd) := by
  cases out with
  | none => simp [broadcasts]
  | some e => cases e <;> simp [broadcasts]

/-- A write of a single process, up to its WRITE_PROC: by then its data is stored under the new tag. -/
theorem writeProc_durable : ∃ (x : Step Unit) (r : AtomicRegisterState Unit),
    x.out = some (.broadcast ⟨⟨1, uuid 7, 0⟩, .writeProc 1 1 (filled 1)⟩) ∧ x.pre.memory = some r ∧
      x.pre.durable 0 = (r.val, r.ts, r.wr) := by
  obtain ⟨tr, w, hrun, hobs⟩ := Run.exists_of_exec (step ⟨1, 0, 1, true⟩) (fun _ _ => True)
    (init fun _ => (.zeros, 0, 0))
    [.build, .client ⟨⟨0, 0⟩, .write (filled 1)⟩ () (uuid 7), .effect,
      .system ⟨⟨1, uuid 7, 0⟩, .value 0 0 .zeros⟩ .asIs, .effect, .effect]
    (fun tr _ => tr.any fun x => broadcasts ⟨⟨1, uuid 7, 0⟩, .writeProc 1 1 (filled 1)⟩ x.out)
    (by decide +kernel)
  obtain ⟨x, hx, hout⟩ := List.any_eq_true.mp hobs
  obtain ⟨r, hr, -, -, hcast⟩ := durable_before_disclosed hrun hx (broadcasts_iff.mp hout)
  exact ⟨x, r, broadcasts_iff.mp hout, hr, (hcast _ _ _ _ rfl).1⟩

end run

end AtomicDisk.Register.Single
