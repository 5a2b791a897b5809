import AtomicDisk.Domain
import AtomicDisk.Schemes.Collections
import AtomicDisk.Schemes.Run

/-! The register client of one process (`register_client.rs`): two queues, two tasks and one slot for
    each other process. The tasks copy a command and never look into it, so the type `α` of commands is
    left open: it is `SystemRegisterCommand`, or numbered commands where each of two equal ones counts.

        send, broadcast ──▶ connection queue ──▶ handle_writing ──▶ connection
                      │            ▲
                      │            │ tick
                      └──▶ retransmission queue ──▶ slot of handle_retransmission

    A task is always ready for any of its steps: every schedule of tasks and ticks, and every outcome of
    a write, is a run. The slot is overwritten by the next command of the retransmission queue, whether or
    not the command in it has ever been written. -/

namespace AtomicDisk.Client
open Schemes

/-- The channels a `Sender` of the client leads to. -/
inductive Channel where
  | self
  | connection (target : UInt8)
  | retransmission (target : UInt8)
  deriving DecidableEq

structure RegisterClientState where
  processesCount : UInt8
  processesTxs : HashMap UInt8 Channel
  retransmissionTxs : HashMap UInt8 Channel

/-- One turn of the loop of `new`. -/
def RegisterClientState.connect (selfIdent : UInt8) (c : RegisterClientState) (i : UInt8) :
    RegisterClientState :=
  if i ≠ selfIdent - 1 then
    let processIdent := i + 1
    { c with
      processesTxs := c.processesTxs.insert processIdent (.connection processIdent)
      retransmissionTxs := c.retransmissionTxs.insert processIdent (.retransmission processIdent) }
  else c

/-- `RegisterClientState::new`: the process itself is reached through `self_tx` in both maps. -/
def RegisterClientState.new (selfIdent processesCount : UInt8) : RegisterClientState :=
  ((List.range processesCount.toNat).map UInt8.ofNat).foldl (connect selfIdent)
    ⟨processesCount, AList.insert selfIdent .self ∅, AList.insert selfIdent .self ∅⟩

variable {α : Type}

/-- A send to one of the channels. -/
structure Push (α : Type) where
  channel : Channel
  cmd : α
  deriving DecidableEq

/-- `send`: what is sent to which channel, in this order; `none` if `expect` finds no such process. -/
def RegisterClientState.send (c : RegisterClientState) (cmd : α) (target : UInt8) :
    Option (List (Push α)) := do
  let channel ← c.processesTxs.lookup target
  let retransmissionChannel ← c.retransmissionTxs.lookup target
  some [⟨channel, cmd⟩, ⟨retransmissionChannel, cmd⟩]

/-- `1..=self.processes_count`. -/
def RegisterClientState.targets (c : RegisterClientState) : List UInt8 :=
  (List.range' 1 c.processesCount.toNat).map UInt8.ofNat

/-- The loop of `broadcast`. -/
def RegisterClientState.sendAll (c : RegisterClientState) (cmd : α) : List UInt8 → Option (List (Push α))
  | [] => some []
  | target :: targets => do
    let pushes ← c.send cmd target
    let rest ← c.sendAll cmd targets
    some (pushes ++ rest)

/-- `broadcast`. -/
def RegisterClientState.broadcast (c : RegisterClientState) (cmd : α) : Option (List (Push α)) :=
  c.sendAll cmd c.targets

/-! ### The tasks -/

/-- What serves one other process. The command that `handle_writing` is writing counts as the first of
    the connection queue until the write has ended; `written` and `passed` only record. -/
structure Link (α : Type) where
  connection : List α
  retransmission : List α
  /-- `cmd` of `handle_retransmission` -/
  held : Option α
  /-- what has been written successfully -/
  written : List α
  /-- what `send` or `broadcast` has sent to both queues -/
  passed : List α

structure World (α : Type) where
  /-- what the calls of `send` and `broadcast` have still to send -/
  calls : List (List (Push α))
  links : UInt8 → Link α
  /-- the channel behind `self_tx` -/
  selfQueue : List α

inductive Event (α : Type) where
  | send (cmd : α) (target : UInt8)
  | broadcast (cmd : α)
  /-- the `i`-th call does its next send -/
  | push (i : ℕ)
  /-- `handle_writing`: the write of the next command ends, with or without success -/
  | write (target : UInt8) (ok : Bool)
  /-- `handle_retransmission`: `interval.tick()` -/
  | tick (target : UInt8)
  /-- `handle_retransmission`: `retransmission_rx.recv()` -/
  | take (target : UInt8)
  /-- `handle_self_messages` receives -/
  | selfReceive

/-- Replace the link to one process. -/
def World.setLink (w : World α) (target : UInt8) (k : Link α) : World α :=
  { w with links := Function.update w.links target k }

/-- A send to an unbounded channel. -/
def World.enqueue (w : World α) (p : Push α) : World α :=
  match p.channel with
  | .self => { w with selfQueue := w.selfQueue ++ [p.cmd] }
  | .connection t => w.setLink t { w.links t with connection := (w.links t).connection ++ [p.cmd] }
  | .retransmission t =>
    w.setLink t { w.links t with
      retransmission := (w.links t).retransmission ++ [p.cmd], passed := (w.links t).passed ++ [p.cmd] }

def step (c : RegisterClientState) (w : World α) : Event α → Option (World α × Unit)
  | .send cmd target => (c.send cmd target).map fun ps => ({ w with calls := w.calls ++ [ps] }, ())
  | .broadcast cmd => (c.broadcast cmd).map fun ps => ({ w with calls := w.calls ++ [ps] }, ())
  | .push i =>
    match w.calls[i]? with
    | some (p :: ps) => some ({ w.enqueue p with calls := w.calls.set i ps }, ())
    | _ => none
  | .write t ok =>
    match (w.links t).connection with
    | [] => none
    | m :: queue =>
      -- the result of the write is dropped by `let _ =`
      let written := if ok then (w.links t).written ++ [m] else (w.links t).written
      some (w.setLink t { w.links t with connection := queue, written }, ())
  | .tick t =>
    let connection := (w.links t).connection ++ (w.links t).held.toList
    some (w.setLink t { w.links t with connection }, ())
  | .take t =>
    match (w.links t).retransmission with
    | [] => none
    | m :: queue =>
      some (w.setLink t { w.links t with retransmission := queue, held := some m }, ())
  | .selfReceive =>
    match w.selfQueue with
    | [] => none
    | _ :: queue => some ({ w with selfQueue := queue }, ())

def init : World α where
  calls := []
  links _ := ⟨[], [], none, [], []⟩
  selfQueue := []

abbrev Trace (α : Type) := List (Entry (World α) (Event α) Unit)

/-- Runs of the client of process `selfIdent` among `n` whose steps all meet `P`. -/
abbrev ClientRun (selfIdent n : UInt8) (P : World α → Event α → Prop) (tr : Trace α) (w : World α) :
    Prop :=
  Run (step (.new selfIdent n)) P init tr w

/-! ### What `send` and `broadcast` do -/

section calls

variable {selfIdent n t : UInt8} {m : α}

/-- The channels for process `t` in the two maps. -/
def RegisterClientState.channels (c : RegisterClientState) (t : UInt8) : Option Channel × Option Channel :=
  (c.processesTxs.lookup t, c.retransmissionTxs.lookup t)

theorem connect_channels (c : RegisterClientState) (i : UInt8) : (c.connect selfIdent i).channels t =
    if t = i + 1 ∧ t ≠ selfIdent then (some (.connection t), some (.retransmission t))
    else c.channels t := by
  have hself : i = selfIdent - 1 ↔ i + 1 = selfIdent :=
    ⟨by rintro rfl; exact UInt8.sub_add_cancel .., by rintro rfl; exact (UInt8.add_sub_cancel ..).symm⟩
  unfold RegisterClientState.connect RegisterClientState.channels
  rcases eq_or_ne t (i + 1) with rfl | ht
  · by_cases hi : i = selfIdent - 1
    · simp [hi]
    · simp [hi, mt hself.mpr hi]
  · split <;> simp [AList.lookup_insert_ne ht, ht]

theorem foldl_connect_channels (l : List UInt8) (c : RegisterClientState) :
    (l.foldl (.connect selfIdent) c).channels t =
      if t - 1 ∈ l ∧ t ≠ selfIdent then (some (.connection t), some (.retransmission t))
      else c.channels t := by
  induction l generalizing c with
  | nil => simp
  | cons i l ih =>
    have hi : t = i + 1 ↔ t - 1 = i :=
      ⟨by rintro rfl; exact UInt8.add_sub_cancel .., by rintro rfl; exact (UInt8.sub_add_cancel ..).symm⟩
    rw [List.foldl_cons, ih, connect_channels]
    by_cases hl : t - 1 ∈ l <;> by_cases ht : t = selfIdent <;> simp [hl, ht, hi]

theorem new_channels (selfIdent n t : UInt8) : (RegisterClientState.new selfIdent n).channels t =
    if t = selfIdent then (some .self, some .self)
    else if 1 ≤ t ∧ t ≤ n then (some (.connection t), some (.retransmission t))
    else (none, none) := by
  have hrange : t - 1 ∈ (List.range n.toNat).map UInt8.ofNat ↔ 1 ≤ t ∧ t ≤ n := by
    rw [List.mem_map]
    constructor
    · rintro ⟨i, hi, hit⟩
      have hlt := n.toNat_lt
      have ht : t.toNat = i + 1 := by
        rw [List.mem_range] at hi
        rw [← UInt8.sub_add_cancel t 1, ← hit, UInt8.toNat_add, UInt8.toNat_ofNat', UInt8.toNat_one]
        omega
      rw [List.mem_range] at hi
      rw [UInt8.le_iff_toNat_le, UInt8.le_iff_toNat_le, UInt8.toNat_one]
      omega
    · rintro ⟨h1, hn⟩
      refine ⟨(t - 1).toNat, List.mem_range.mpr ?_, by simp⟩
      rw [UInt8.le_iff_toNat_le] at h1 hn
      rw [UInt8.toNat_sub_of_le _ _ (UInt8.le_iff_toNat_le.mpr h1), UInt8.toNat_one]
      rw [UInt8.toNat_one] at h1
      omega
  rw [RegisterClientState.new, foldl_connect_channels]
  rcases eq_or_ne t selfIdent with rfl | ht
  · simp only [RegisterClientState.channels, AList.lookup_insert, ne_eq, not_true_eq_false, and_false,
      if_true, if_false]
  · simp only [hrange, ht, ne_eq, not_false_eq_true, and_true, if_false]
    split
    · rfl
    · simp only [RegisterClientState.channels, AList.lookup_insert_ne ht, AList.lookup_empty]

/-- `send` finds both channels of every other process. -/
theorem send_eq (h1 : 1 ≤ t) (hn : t ≤ n) (ht : t ≠ selfIdent) :
    (RegisterClientState.new selfIdent n).send m t =
      some [⟨.connection t, m⟩, ⟨.retransmission t, m⟩] := by
  have hch := new_channels selfIdent n t
  rw [if_neg ht, if_pos ⟨h1, hn⟩] at hch
  obtain ⟨hc, hr⟩ := Prod.mk.inj hch
  simp [RegisterClientState.send, hc, hr]

theorem foldl_connect_count (l : List UInt8) (c : RegisterClientState) :
    (l.foldl (.connect selfIdent) c).processesCount = c.processesCount := by
  induction l generalizing c with
  | nil => rfl
  | cons i l ih =>
    rw [List.foldl_cons, ih, RegisterClientState.connect]
    split <;> rfl

theorem mem_targets : t ∈ (RegisterClientState.new selfIdent n).targets ↔ 1 ≤ t ∧ t ≤ n := by
  have hcount : (RegisterClientState.new selfIdent n).processesCount = n := foldl_connect_count ..
  rw [RegisterClientState.targets, hcount, List.mem_map, UInt8.le_iff_toNat_le, UInt8.le_iff_toNat_le,
    UInt8.toNat_one]
  have hn := n.toNat_lt
  constructor
  · rintro ⟨i, hi, rfl⟩
    rw [List.mem_range'_1] at hi
    rw [UInt8.toNat_ofNat']
    omega
  · rintro h
    exact ⟨t.toNat, List.mem_range'_1.mpr (by omega), by simp⟩

theorem send_subset_sendAll {c : RegisterClientState} {targets : List UInt8} {ps qs : List (Push α)}
    (h : c.sendAll m targets = some qs) (ht : t ∈ targets) (hp : c.send m t = some ps) : ps ⊆ qs := by
  induction targets generalizing qs with
  | nil => simp at ht
  | cons t' targets ih =>
    rw [RegisterClientState.sendAll] at h
    simp only [Option.bind_eq_bind, Option.bind_eq_some_iff, Option.some.injEq] at h
    obtain ⟨ps', hps', rest, hrest, rfl⟩ := h
    rcases List.mem_cons.mp ht with rfl | ht
    · obtain rfl : ps = ps' := Option.some.inj (hp.symm.trans hps')
      exact List.subset_append_left ..
    · exact List.Subset.trans (ih hrest ht) (List.subset_append_right ..)

end calls

/-! ### What a step does to one link -/

theorem World.setLink_same (w : World α) (t : UInt8) (k : Link α) : (w.setLink t k).links t = k := by
  simp [World.setLink]

theorem World.setLink_ne (w : World α) {t t' : UInt8} (k : Link α) (h : t ≠ t') :
    (w.setLink t' k).links t = w.links t := by
  simp [World.setLink, h]

/-- What an event can do to the link to process `t`. -/
inductive Stepped (t : UInt8) (k : Link α) : Event α → Link α → Prop
  | same {e : Event α} : Stepped t k e k
  | push {e : Event α} (m : α) : Stepped t k e { k with connection := k.connection ++ [m] }
  | pass {e : Event α} (m : α) : Stepped t k e
      { k with retransmission := k.retransmission ++ [m], passed := k.passed ++ [m] }
  | write {m : α} {queue : List α} {ok : Bool} : k.connection = m :: queue → Stepped t k (.write t ok)
      { k with connection := queue, written := if ok then k.written ++ [m] else k.written }
  | tick : Stepped t k (.tick t) { k with connection := k.connection ++ k.held.toList }
  | take {m : α} {queue : List α} : k.retransmission = m :: queue → Stepped t k (.take t)
      { k with retransmission := queue, held := some m }

variable {c : RegisterClientState} {w w' : World α} {e : Event α} {o : Unit}

/-- What is done to one link by a step that replaces one link. -/
theorem stepped_setLink {t' : UInt8} {k : Link α} (h : Stepped t' (w.links t') e k) (t : UInt8) :
    Stepped t (w.links t) e ((w.setLink t' k).links t) := by
  rcases eq_or_ne t t' with rfl | ht
  · rw [World.setLink_same]
    exact h
  · rw [World.setLink_ne _ _ ht]
    exact .same

theorem stepped_enqueue (p : Push α) (t : UInt8) : Stepped t (w.links t) e ((w.enqueue p).links t) := by
  rw [World.enqueue]
  split
  · exact .same
  · exact stepped_setLink (.push _) t
  · exact stepped_setLink (.pass _) t

/-- Every step does one of these to every link. -/
theorem step_stepped (hs : step c w e = some (w', o)) (t : UInt8) : Stepped t (w.links t) e (w'.links t) := by
  cases e with
  | send cmd target =>
    obtain ⟨ps, -, hw⟩ := Option.map_eq_some_iff.mp hs
    obtain ⟨rfl, -⟩ := Prod.mk.inj hw
    exact .same
  | broadcast cmd =>
    obtain ⟨ps, -, hw⟩ := Option.map_eq_some_iff.mp hs
    obtain ⟨rfl, -⟩ := Prod.mk.inj hw
    exact .same
  | push i =>
    simp only [step] at hs
    split at hs
    · obtain ⟨rfl, -⟩ := Prod.mk.inj (Option.some.inj hs)
      exact stepped_enqueue _ t
    · simp at hs
  | write t' ok =>
    simp only [step] at hs
    split at hs
    · simp at hs
    · rename_i hq
      obtain ⟨rfl, -⟩ := Prod.mk.inj (Option.some.inj hs)
      exact stepped_setLink (.write hq) t
  | tick t' =>
    obtain ⟨rfl, -⟩ := Prod.mk.inj (Option.some.inj hs)
    exact stepped_setLink .tick t
  | take t' =>
    simp only [step] at hs
    split at hs
    · simp at hs
    · rename_i hq
      obtain ⟨rfl, -⟩ := Prod.mk.inj (Option.some.inj hs)
      exact stepped_setLink (.take hq) t
  | selfReceive =>
    simp only [step] at hs
    split at hs
    · simp at hs
    · obtain ⟨rfl, -⟩ := Prod.mk.inj (Option.some.inj hs)
      exact .same

end AtomicDisk.Client
