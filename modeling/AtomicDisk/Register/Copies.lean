import AtomicDisk.Register.Quorum

/-! Where copies of a sector come from. A copy is data with its tag, wherever it is held: in a register,
    in storage, in a readlist, in a VALUE or a WRITE_PROC on its way. New data enters in one place only,
    the step in which a writer stores it (`Issues`); every other copy is made from a copy that is there
    already, and the first ones are the zeros of the initial state. -/

namespace AtomicDisk.Register
open Schemes

/-- The data `d` is held under the tag `(t, wr)` somewhere in the system. -/
inductive Held (w : System) : UInt64 → UInt8 → SectorVec → Prop
  | register {i r} : (w.process i).register = some r → Held w r.ts r.wr r.val
  | storage {i t wr d} : (w.process i).sector = (d, t, wr) → Held w t wr d
  | readlist {i r k t wr d} : (w.process i).register = some r →
      r.readlist.lookup k = some (t, wr, d) → Held w t wr d
  | value {m t wr d} : m ∈ w.network → m.cmd.content = .value t wr d → Held w t wr d
  | writeProc {m t wr d} : m ∈ w.network → m.cmd.content = .writeProc t wr d → Held w t wr d

/-- In this step process `i` stores the data of its client's write `id` under the tag `(t, i)`. -/
def Issues (p : Params) (i : UInt8) (id : Uuid) (t : UInt64) (d : SectorVec) (x : Step) : Prop :=
  Picks i id t i d x ∧ .write p.sectorIdx (d, t, i) ∈ x.out

variable {p : Params} {P : System → Event → Prop} {tr : Trace} {w : System} {x : Step}
  {i wr : UInt8} {id : Uuid} {t : UInt64} {d : SectorVec} {oc : Bool}
  {r r' : AtomicRegisterState Uuid} {h : SystemCommandHeader} {c : SystemRegisterCommandContent}
  {es effs : List (Effect Uuid)}

/-! ### Stores -/

/-- A handler stores the data of a larger WRITE_PROC, or the data of its own write. -/
theorem Handled.stores (hh : Handled oc r h c r' effs) {idx : SectorIdx}
    {s : SectorVec × UInt64 × UInt8} (hmem : .write idx s ∈ effs) : idx = r.sectorIdx ∧
      (c = .writeProc s.2.1 s.2.2 s.1 ∧ tag r.ts r.wr < sectorTag s ∨
      (∃ ts rank v, c = .value ts rank v) ∧ s.2.2 = r.selfIdent) := by
  cases hh with
  | writeProcAdopt hlt =>
    obtain ⟨rfl, rfl⟩ : idx = r.sectorIdx ∧ s = _ := by simpa using hmem
    exact ⟨rfl, Or.inl ⟨rfl, hlt⟩⟩
  | valueWrite =>
    obtain ⟨rfl, rfl⟩ : idx = r.sectorIdx ∧ s = _ := by simpa using hmem
    exact ⟨rfl, Or.inr ⟨⟨_, _, _, rfl⟩, rfl⟩⟩
  | _ => simp at hmem

/-- What the storage holds after effects is what it held, or what one of them has stored. -/
theorem stored_cases (p : Params) (s : SectorVec × UInt64 × UInt8) (es : List (Effect Uuid)) :
    stored p s es = s ∨ .write p.sectorIdx (stored p s es) ∈ es := by
  induction es using List.reverseRecOn with
  | nil => exact Or.inl rfl
  | append_singleton es e ih =>
    have hlast : stored p s (es ++ [e]) = stored p (stored p s es) [e] := by simp [stored]
    rw [hlast]
    cases e with
    | write idx s' =>
      by_cases hidx : idx = p.sectorIdx
      · right; simp [stored, hidx]
      · rw [show stored p (stored p s es) [.write idx s'] = stored p s es by simp [stored, hidx]]
        exact ih.imp_right (List.mem_append_left _)
    | send | broadcast | callback =>
      rw [show stored p (stored p s es) _ = stored p s es from rfl]
      exact ih.imp_right (List.mem_append_left _)

/-- A step that stores the data of the register's own write is one in which it issues it. -/
theorem issues_of_store {cmd : SystemRegisterCommand} (hwf : WellFormed p tr x.pre)
    (hd : Delivery p x i cmd r r' effs) {idx : SectorIdx} {s : SectorVec × UInt64 × UInt8}
    (hval : ∃ ts rank v, cmd.content = .value ts rank v) (hmem : .write idx s ∈ x.out) :
    Issues p i cmd.header.msgIdent s.2.1 s.1 x ∧ s.2.2 = i := by
  have hlive := hwf.live i r hd.register
  obtain ⟨order, cut, hev⟩ := hd.event
  obtain ⟨rfl, hcase⟩ := hd.handled.stores (hd.effects.subset hmem)
  have hself : s.2.2 = i := by
    rcases hcase with ⟨hc, -⟩ | ⟨-, hself⟩
    · obtain ⟨_, _, _, hval⟩ := hval; rw [hval] at hc; cases hc
    · rw [hself, hlive.self]
  obtain ⟨data, ts, rank⟩ := s
  obtain rfl : rank = i := hself
  rw [hlive.sectorIdx] at hmem
  exact ⟨⟨⟨cmd, order, cut, hev, rfl, hval, _, hmem, Or.inl ⟨_, rfl⟩⟩, hmem⟩, rfl⟩

/-! ### Copies -/

/-- The register's own copy after a handler: unchanged, taken from a WRITE_PROC, or just stored. -/
theorem Handled.copy (hh : Handled oc r h c r' effs) :
    (r'.ts = r.ts ∧ r'.wr = r.wr ∧ r'.val = r.val) ∨ c = .writeProc r'.ts r'.wr r'.val ∨
      (∃ ts rank v, c = .value ts rank v) ∧ .write r.sectorIdx (r'.val, r'.ts, r'.wr) ∈ effs := by
  cases hh with
  | writeProcAdopt => exact Or.inr (Or.inl rfl)
  | valueWrite => exact Or.inr (Or.inr ⟨⟨_, _, _, rfl⟩, List.mem_cons_self ..⟩)
  | _ => exact Or.inl ⟨rfl, rfl, rfl⟩

/-- The entries the maximum is taken of are copies. -/
theorem held_of_consulted {cmd : SystemRegisterCommand} {v : ReadEntry} {k : UInt8}
    (hreg : (w.process i).register = some r) (hdel : ⟨cmd, i⟩ ∈ w.network)
    (hc : cmd.content = .value v.1 v.2.1 v.2.2)
    (hk : (consulted r cmd.header.processIdentifier v).lookup k = some (t, wr, d)) :
    Held w t wr d := by
  rw [consulted] at hk
  by_cases hself : k = r.selfIdent
  · rw [hself, AList.lookup_insert] at hk
    obtain ⟨rfl, rfl, rfl⟩ : r.ts = t ∧ r.wr = wr ∧ r.val = d := by simpa using hk
    exact .register hreg
  · rw [AList.lookup_insert_ne hself, collected] at hk
    by_cases hq : k = cmd.header.processIdentifier
    · rw [hq, AList.lookup_insert] at hk
      obtain rfl := Option.some.inj hk
      exact .value hdel hc
    · rw [AList.lookup_insert_ne hq] at hk
      exact .readlist hreg hk

/-- A copy that is there after a step was there before, or has just been issued. -/
theorem held_after (hr : SystemRun p P tr x.pre) (hs : step p x.pre x.event = some (x.post, x.out))
    (hh : Held x.post t wr d) : Held x.pre t wr d ∨ ∃ id, Issues p wr id t d x := by
  have hwf := wellFormed hr
  have hstore : ∀ i cmd r r' effs idx s, Delivery p x i cmd r r' effs → .write idx s ∈ x.out →
      Held x.pre s.2.1 s.2.2 s.1 ∨ ∃ id, Issues p s.2.2 id s.2.1 s.1 x := by
    intro i cmd r r' effs idx s hd hmem
    rcases (hd.handled.stores (hd.effects.subset hmem)).2 with ⟨hc, -⟩ | ⟨hval, -⟩
    · exact Or.inl (.writeProc hd.delivered hc)
    · obtain ⟨hiss, hself⟩ := issues_of_store hwf hd hval hmem
      rw [hself]
      exact Or.inr ⟨_, hiss⟩
  cases hh with
  | @register i r' hreg =>
    rcases register_after hs hreg with hold | ⟨cmd, id, r, hi, rfl⟩ | ⟨cmd, r, hd⟩ | rfl
    · exact Or.inl (.register hold)
    · obtain ⟨h₁, h₂, h₃⟩ := clientCommand_copy r cmd id id
      rw [h₁, h₂, h₃]
      exact Or.inl (.register hi.register)
    · rcases hd.handled.copy with ⟨h₁, h₂, h₃⟩ | hc | ⟨-, hmem⟩
      · rw [h₁, h₂, h₃]
        exact Or.inl (.register hd.register)
      · exact Or.inl (.writeProc hd.delivered hc)
      · exact hstore i cmd r r' x.out _ _ hd hmem
    · exact Or.inl (.storage rfl)
  | @storage i t wr d hsec =>
    rcases sector_after hs i with hsame | ⟨cmd, r, r', effs, hd⟩
    · rw [hsame] at hsec
      exact Or.inl (.storage hsec)
    · have hst := hd.sector
      rcases stored_cases p (x.pre.process i).sector x.out with hkeep | hmem
      · rw [hkeep, hsec] at hst
        exact Or.inl (.storage hst.symm)
      · rw [← hst, hsec] at hmem
        exact hstore i cmd r r' effs _ _ hd hmem
  | @readlist i r' k t wr d hreg hk =>
    rcases register_after hs hreg with hold | ⟨cmd, id, r, hi, rfl⟩ | ⟨cmd, r, hd⟩ | rfl
    · exact Or.inl (.readlist hold hk)
    · simp [clientCommand_lists] at hk
    · rcases hd.handled.readlist hk with hk | ⟨-, -, hc⟩
      · exact Or.inl (.readlist hd.register hk)
      · exact Or.inl (.value hd.delivered hc)
    · simp at hk
  | @value m t wr d hm hc =>
    rcases new_message hwf hs hm with hold | ⟨i, cmd, id, r, -, -, -, -, hc'⟩ |
      ⟨i, cmd, r, r', effs, hd, -, hsent, -, -⟩
    · exact Or.inl (.value hold hc)
    · simp [hc] at hc'
    · obtain ⟨-, hkind⟩ := hd.handled.sends (sent_mono hd.effects hsent)
      rw [hc] at hkind
      obtain ⟨-, rfl, rfl, rfl⟩ : _ ∧ t = r.ts ∧ wr = r.wr ∧ d = r.val := by simpa using hkind
      exact Or.inl (.register hd.register)
  | @writeProc m t wr d hm hc =>
    rcases new_message hwf hs hm with hold | ⟨i, cmd, id, r, -, -, -, -, hc'⟩ |
      ⟨i, cmd, r, r', effs, hd, -, hsent, -, -⟩
    · exact Or.inl (.writeProc hold hc)
    · simp [hc] at hc'
    · obtain ⟨cmd', v, e, r₁, r₁', effs', hpk⟩ := (picks_of_sent hd hsent hc).picked hs
      rcases hpk.choice with ⟨-, rfl⟩ | ⟨hread, -⟩
      · obtain ⟨⟨k, hk⟩, -⟩ := hpk.highest
        exact Or.inl (held_of_consulted hpk.delivery.register hpk.delivery.delivered hpk.value hk)
      · exact hstore i cmd' r₁ r₁' effs' _ _ hpk.delivery (hpk.store hread)

/-- Every copy is a zero sector of the initial state, or has been issued. -/
theorem held_sourced (hr : SystemRun p P tr w) (hh : Held w t wr d) :
    (t = 0 ∧ wr = 0 ∧ d = .zeros) ∨ ∃ x ∈ tr, ∃ id, Issues p wr id t d x := by
  revert hh
  refine hr.invariant (I := fun tr w => Held w t wr d →
    (t = 0 ∧ wr = 0 ∧ d = .zeros) ∨ ∃ x ∈ tr, ∃ id, Issues p wr id t d x) ?_ ?_
  · intro hh
    left
    cases hh with
    | register hreg => obtain ⟨-, rfl⟩ := init_register hreg; exact ⟨rfl, rfl, rfl⟩
    | storage hsec =>
      obtain ⟨rfl, rfl, rfl⟩ : d = .zeros ∧ t = 0 ∧ wr = 0 := by simpa [init, eq_comm] using hsec
      exact ⟨rfl, rfl, rfl⟩
    | readlist hreg hk => obtain ⟨-, rfl⟩ := init_register hreg; simp at hk
    | value hm | writeProc hm => simp [init] at hm
  · intro tr x hr ih _ hs hh
    rcases held_after hr hs hh with hold | hnew
    · rcases ih hold with hzero | ⟨y, hy, hiss⟩
      · exact Or.inl hzero
      · exact Or.inr ⟨y, List.mem_append_left _ hy, hiss⟩
    · exact Or.inr ⟨x, by simp, hnew⟩

end AtomicDisk.Register
