import AtomicDisk.Register.Callbacks
import AtomicDisk.Register.Handlers

/-! The callback of an operation can be named by the operation's id, whatever it is: in the system of all
    processes a callback is an id (`System`), in one process it is what the client's connection has to be
    told. -/

namespace AtomicDisk.Register
open Schemes

variable {κ : Type} {r : AtomicRegisterState κ} {oc : Bool} {order : IterOrder UInt8 ReadEntry}

/-- The register with its callback named by the operation it is for. -/
def AtomicRegisterState.named (r : AtomicRegisterState κ) : AtomicRegisterState Uuid :=
  r.mapCallback fun _ => r.opId.getD (uuid 0)

theorem named_clientCommand (cmd : ClientRegisterCommand) (g : κ) (id : Uuid) :
    clientCommand r.named cmd id id =
      mapped (fun _ => id) (clientCommand r cmd g id) ∧
    (clientCommand r.named cmd id id).1 = (clientCommand r cmd g id).1.named := by
  obtain ⟨header, _ | data⟩ := cmd <;>
    simp [clientCommand, AtomicRegisterState.named, AtomicRegisterState.mapCallback, mapped,
      Effect.mapCallback]

/-- A handler of system commands leaves the operation as it is, so the names stay. -/
theorem named_systemCommand {cmd : SystemRegisterCommand} {r' : AtomicRegisterState κ}
    {effs : List (Effect κ)} (hs : systemCommand oc order r cmd = some (r', effs)) :
    systemCommand oc order r.named cmd =
      some (r'.named, effs.map (Effect.mapCallback fun _ => r.opId.getD (uuid 0))) := by
  rw [AtomicRegisterState.named, systemCommand_map, hs, Option.map_some, mapped,
    AtomicRegisterState.named, (systemCommand_handled hs).ids.1]

end AtomicDisk.Register
