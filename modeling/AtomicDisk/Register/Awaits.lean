import AtomicDisk.Client.RegisterClient
import AtomicDisk.Register.Panics
import AtomicDisk.Storage.LastWrite

/-! A register with what its handlers wait for. `system_command` awaits `write` of the sectors manager and
    `send` and `broadcast` of the register client, and a panic in one of them is a panic of the handler:

        system_command ──▶ op_id.unwrap()            no operation started yet (VALUE, ACK)
                       ──▶ write ──▶ remove_file     the file of the tag in the map is not there
                       ──▶ send  ──▶ expect          the sender is none of 1..=N (READ_PROC, WRITE_PROC)

    These are all the ways in which a command is not handled (`safelyHandled_iff`). The channels of the register
    client are open, and the callback returns. -/

namespace AtomicDisk.Register
open Schemes
open Client (RegisterClientState Push)
open Storage (SectorsManagerState sectoridxFilePath)

variable {κ : Type}

/-- A register, with the sectors manager and the register client it has been built with. -/
structure Equipped (κ : Type) where
  register : AtomicRegisterState κ
  manager : SectorsManagerState
  client : RegisterClientState

/-- Wait for one effect; `none` is a panic in what is awaited. -/
def await (client : RegisterClientState) (m : SectorsManagerState) :
    Effect κ → Option (SectorsManagerState × List (Push SystemRegisterCommand))
  | .write idx sector => (m.write idx sector).map fun m => (m, [])
  | .send msg => (client.send msg.cmd msg.target).map fun pushes => (m, pushes)
  | .broadcast cmd => (client.broadcast cmd).map fun pushes => (m, pushes)
  | .callback _ _ => some (m, [])

/-- Wait for one effect after the other. -/
def awaitAll (client : RegisterClientState) :
    SectorsManagerState → List (Effect κ) → Option (SectorsManagerState × List (Push SystemRegisterCommand))
  | m, [] => some (m, [])
  | m, e :: es => do
    let (m, pushes) ← await client m e
    let (m, rest) ← awaitAll client m es
    some (m, pushes ++ rest)

/-- `build_atomic_register`, which reads the sector from the manager. -/
def Equipped.build (selfIdent : UInt8) (sectorIdx : SectorIdx) (processesCount : UInt8)
    (m : SectorsManagerState) : Option (Equipped κ) :=
  (m.readData sectorIdx).map fun val =>
    ⟨buildAtomicRegister selfIdent sectorIdx processesCount (val, m.readMetadata sectorIdx), m,
      .new selfIdent processesCount⟩

/-- `client_command`, with what it sends. -/
def Equipped.clientCommand (s : Equipped κ) (cmd : ClientRegisterCommand) (successCallback : κ) (uuid : Uuid) :
    Option (Equipped κ × List (Push SystemRegisterCommand)) :=
  let (register, effs) := Register.clientCommand s.register cmd successCallback uuid
  (awaitAll s.client s.manager effs).map fun (manager, pushes) => ({ s with register, manager }, pushes)

/-- `system_command`, with the effects of the handler and what it sends. -/
def Equipped.systemCommand (oc : Bool) (order : IterOrder UInt8 ReadEntry) (s : Equipped κ)
    (cmd : SystemRegisterCommand) :
    Option (Equipped κ × List (Effect κ) × List (Push SystemRegisterCommand)) := do
  let (register, effs) ← Register.systemCommand oc order s.register cmd
  let (manager, pushes) ← awaitAll s.client s.manager effs
  some ({ s with register, manager }, effs, pushes)

/-- The states from `build_atomic_register` on, by any calls of `client_command` and `system_command`, while the
    registers of other sectors write through the same manager. The second index is the id of the operation
    that was started last. -/
inductive Lifetime (oc : Bool) : Equipped κ → Option Uuid → Prop
  | build {s} (selfIdent : UInt8) (sectorIdx : SectorIdx) (processesCount : UInt8) (m : SectorsManagerState) :
      1 ≤ selfIdent → selfIdent ≤ processesCount →
      Equipped.build selfIdent sectorIdx processesCount m = some s → Lifetime oc s none
  | client {s s' last pushes} (cmd : ClientRegisterCommand) (f : κ) (uuid : Uuid) : Lifetime oc s last →
      s.clientCommand cmd f uuid = some (s', pushes) → Lifetime oc s' (some uuid)
  | system {s s' last effs pushes} (order : IterOrder UInt8 ReadEntry) (cmd : SystemRegisterCommand) :
      Lifetime oc s last → s.systemCommand oc order cmd = some (s', effs, pushes) → Lifetime oc s' last
  | elsewhere {s m last} (idx : SectorIdx) (sector : Storage.Sector) : Lifetime oc s last →
      idx ≠ s.register.sectorIdx → s.manager.write idx sector = some m → Lifetime oc { s with manager := m } last

variable {oc : Bool} {s s' : Equipped κ} {r r' : AtomicRegisterState κ} {last : Option Uuid}
  {cmd : SystemRegisterCommand} {order : IterOrder UInt8 ReadEntry} {effs : List (Effect κ)}
  {h : SystemCommandHeader} {c : SystemRegisterCommandContent} {m : SectorsManagerState}

/-! ### What is awaited -/

/-- A command is handled if the register handles it and what its handler awaits is done. -/
theorem systemCommand_eq_some {pushes : List (Push SystemRegisterCommand)} :
    s.systemCommand oc order cmd = some (s', effs, pushes) ↔
      systemCommand oc order s.register cmd = some (s'.register, effs) ∧
        awaitAll s.client s.manager effs = some (s'.manager, pushes) ∧ s'.client = s.client := by
  simp only [Equipped.systemCommand, Option.bind_eq_bind, Option.bind_eq_some_iff, Prod.exists, Option.some_inj,
    Prod.mk.injEq]
  constructor
  · rintro ⟨register, effs', hreg, manager, pushes', hall, rfl, rfl, rfl⟩
    exact ⟨hreg, hall, rfl⟩
  · rintro ⟨hreg, hall, hclient⟩
    exact ⟨_, _, hreg, _, _, hall, by rw [← hclient], rfl, rfl⟩

/-- What holds in a lifetime: the register is one of an incarnation, and the client is that of its process. -/
structure Lifetime.Kept (oc : Bool) (s : Equipped κ) (last : Option Uuid) : Prop where
  incarnation : Incarnation oc s.register last
  client : s.client = .new s.register.selfIdent s.register.processesCount
  process : 1 ≤ s.register.selfIdent ∧ s.register.selfIdent ≤ s.register.processesCount

/-- Of a register that stays who it is. -/
theorem Lifetime.Kept.goesOn {last' : Option Uuid} (hk : Kept oc s last) (hr : Incarnation oc r last')
    (hself : r.selfIdent = s.register.selfIdent) (hcount : r.processesCount = s.register.processesCount)
    (m : SectorsManagerState) : Kept oc ⟨r, m, s.client⟩ last' := by
  refine ⟨hr, ?_, ?_⟩
  · rw [hself, hcount]
    exact hk.client
  · rw [hself, hcount]
    exact hk.process

theorem Lifetime.kept (hl : Lifetime oc s last) : Kept oc s last := by
  induction hl with
  | build selfIdent sectorIdx n m hpos hle hbuild =>
    obtain ⟨val, -, rfl⟩ := Option.map_eq_some_iff.mp hbuild
    exact ⟨.build .., rfl, hpos, hle⟩
  | @client s s' last pushes cmd f uuid _ hs ih =>
    obtain ⟨⟨manager, pushes⟩, -, heq⟩ := Option.map_eq_some_iff.mp hs
    cases heq
    obtain ⟨hself, hcount, -⟩ := clientCommand_identity s.register cmd f uuid
    exact ih.goesOn (ih.incarnation.client cmd f uuid) hself hcount manager
  | @system s s' last effs pushes order cmd _ hs ih =>
    obtain ⟨hreg, -, hclient⟩ := systemCommand_eq_some.mp hs
    obtain ⟨hself, hcount, -⟩ := (systemCommand_handled hreg).identity
    have hgoes := ih.goesOn (ih.incarnation.system order cmd hreg) hself hcount s'.manager
    rwa [← hclient] at hgoes
  | elsewhere _ _ _ _ _ ih => exact ⟨ih.incarnation, ih.client, ih.process⟩

section run

-- sectors of 4096 bytes are compared byte by byte when a concrete run is replayed
set_option maxRecDepth 40000

end run

end AtomicDisk.Register
