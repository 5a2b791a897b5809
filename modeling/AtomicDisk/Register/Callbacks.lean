import AtomicDisk.Register.AtomicRegister

/-! A register keeps its callback and hands it on, and does not look at it: with other callbacks, also of another
    type, it does the same, and hands on those. -/

namespace AtomicDisk.Register
open Schemes

variable {κ κ' : Type} (f : κ → κ') {r : AtomicRegisterState κ} {oc : Bool}
  {order : IterOrder UInt8 ReadEntry}

/-- The register with another callback. -/
def AtomicRegisterState.mapCallback (r : AtomicRegisterState κ) : AtomicRegisterState κ' :=
  { r with callback := r.callback.map f }

def Effect.mapCallback : Effect κ → Effect κ'
  | .write idx sector => .write idx sector
  | .send msg => .send msg
  | .broadcast cmd => .broadcast cmd
  | .callback g opSuccess => .callback (f g) opSuccess

/-- What a handler does, over the other callbacks. -/
def mapped (x : AtomicRegisterState κ × List (Effect κ)) : AtomicRegisterState κ' × List (Effect κ') :=
  (x.1.mapCallback f, x.2.map (Effect.mapCallback f))

theorem clientCommand_map (cmd : ClientRegisterCommand) (g : κ) (uuid : Uuid) :
    clientCommand (r.mapCallback f) cmd (f g) uuid = mapped f (clientCommand r cmd g uuid) := by
  cases hc : cmd.content <;>
    simp [clientCommand, hc, mapped, AtomicRegisterState.mapCallback, Effect.mapCallback]

theorem startWritePhase_map (sidx : SectorIdx) (opId : Uuid) :
    startWritePhase oc order (r.mapCallback f) sidx opId =
      (startWritePhase oc order r sidx opId).map (mapped f) := by
  simp only [startWritePhase, AtomicRegisterState.mapCallback]
  cases maxBy cmpEntries (order.iter (r.readlist.insert r.selfIdent (r.ts, r.wr, r.val)).entries) with
  | none => simp
  | some x =>
    obtain ⟨rank, maxts, rr, readval⟩ := x
    simp only [Option.bind_eq_bind, Option.bind_some]
    split
    · rfl
    · cases addU64 oc maxts 1 <;> rfl

theorem onValue_map (h : SystemCommandHeader) (entry : ReadEntry) :
    onValue oc order (r.mapCallback f) h entry = (onValue oc order r h entry).map (mapped f) := by
  obtain ⟨selfIdent, sectorIdx, n, ts, wr, val, readlist, acklist, reading, writing, writeval, readval,
    writePhase, callback, rid, _ | opId⟩ := r
  · rfl
  · simp only [onValue, AtomicRegisterState.mapCallback, Option.bind_eq_bind, Option.bind_some]
    rw [apply_ite (Option.map (mapped f)), apply_ite (Option.map (mapped f)), ← startWritePhase_map]
    rfl

theorem onWriteProc_map (h : SystemCommandHeader) (ts : UInt64) (wr : UInt8) (data : SectorVec) :
    onWriteProc (r.mapCallback f) h ts wr data = (onWriteProc r h ts wr data).map (mapped f) := by
  simp only [onWriteProc, AtomicRegisterState.mapCallback]
  rw [apply_ite (Option.map (mapped f))]
  rfl

theorem respond_map (opReturn : OperationReturn) :
    respond (r.mapCallback f) opReturn = (respond r opReturn).map (mapped f) := by
  cases hcb : r.callback with
  | none => simp [respond, AtomicRegisterState.mapCallback, hcb, mapped]
  | some g =>
    cases hrid : r.rid <;>
      simp [respond, AtomicRegisterState.mapCallback, hcb, hrid, mapped, Effect.mapCallback]

theorem onAck_map (h : SystemCommandHeader) :
    onAck (r.mapCallback f) h = (onAck r h).map (mapped f) := by
  obtain ⟨selfIdent, sectorIdx, n, ts, wr, val, readlist, acklist, reading, writing, writeval, readval,
    writePhase, callback, rid, _ | opId⟩ := r
  · rfl
  · simp only [onAck, completeOperation, AtomicRegisterState.mapCallback, Option.bind_eq_bind,
      Option.bind_some]
    rw [apply_ite (Option.map (mapped f)), apply_ite (Option.map (mapped f)),
      apply_ite (Option.map (mapped f)), ← respond_map, ← respond_map]
    rfl

/-- The handler of system commands, over other callbacks. -/
theorem systemCommand_map (cmd : SystemRegisterCommand) :
    systemCommand oc order (r.mapCallback f) cmd = (systemCommand oc order r cmd).map (mapped f) := by
  unfold systemCommand
  split
  · rfl
  · exact onValue_map f _ _
  · exact onWriteProc_map f _ _ _ _
  · exact onAck_map f _

end AtomicDisk.Register
