import AtomicDisk.Schemes.Linearizable
import Mathlib.Data.Prod.Lex
import Mathlib.Data.Finset.Card

/-! The algorithm of `(N-N)-AtomicRegister.txt`, as it is described there: instances with their variables, what
    they do `upon event`, and links that keep every message (`sbeb` and `sl` are stubborn). Processes, ranks,
    values and identifiers are of any types.

        Read, Write v ──▶ READ_PROC to all ──▶ VALUE of a majority ──▶ highest(readlist)
                                                                        │
        ReadReturn, WriteReturn ◀── ACK of a majority ◀── WRITE_PROC to all ◀┘

    An instance that crashes keeps what it has stored, and `Recovery` retrieves it. -/

namespace AtomicDisk.Nnar
open Schemes

/-- The messages; each has the identifier of its operation. -/
inductive Message (R V I : Type) where
  | readProc (id : I)
  | value (id : I) (ts : ℕ) (wr : R) (v : V)
  | writeProc (id : I) (ts : ℕ) (wr : R) (v : V)
  | ack (id : I)

/-- What an instance is to react to; `generate_unique_id()` gives `id`. -/
inductive Upon (N R V I : Type) where
  | read (id : I)
  | write (v : V) (id : I)
  | deliver (p : N) (m : Message R V I)

/-- What an instance triggers, and `store`. -/
inductive Trigger (N R V I : Type) where
  | broadcast (m : Message R V I)
  | send (p : N) (m : Message R V I)
  | store (ts : ℕ) (wr : R) (v : V)
  | readReturn (v : V)
  | writeReturn

/-- The variables of an instance; `_` in a list is `none`. -/
structure Instance (N R V I : Type) where
  ts : ℕ
  wr : R
  val : V
  readlist : N → Option (ℕ × R × V)
  acklist : Finset N
  reading : Bool
  writing : Bool
  writeval : V
  readval : V
  writePhase : Bool
  opId : Option I

variable {N R V I : Type} [DecidableEq N]

/-- `Recovery`, and with nothing stored `Init`: everything is blank but what has been retrieved. -/
def recovery (blank : V) (retrieved : ℕ × R × V) : Instance N R V I where
  ts := retrieved.1
  wr := retrieved.2.1
  val := retrieved.2.2
  readlist _ := none
  acklist := ∅
  reading := false
  writing := false
  writeval := blank
  readval := blank
  writePhase := false
  opId := none

/-- `#(readlist)`. -/
def entries (procs : Finset N) (readlist : N → Option (ℕ × R × V)) : ℕ :=
  (procs.filter fun q => (readlist q).isSome).card

/-- `(maxts, rr, readval)` is `highest(readlist)`: the largest entry by timestamp and rank. -/
def IsHighest [LinearOrder R] (readlist : N → Option (ℕ × R × V)) (e : ℕ × R × V) : Prop :=
  (∃ q, readlist q = some e) ∧ ∀ q e', readlist q = some e' → toLex (e'.1, e'.2.1) ≤ toLex (e.1, e.2.1)

variable [LinearOrder R]

/-- One line for each branch of an `upon event`: the event, the variables after it, and what is triggered. -/
inductive Reacts (procs : Finset N) (rank : N → R) (self : N) (s : Instance N R V I) :
    Upon N R V I → Instance N R V I → List (Trigger N R V I) → Prop
  | read {id : I} : Reacts procs rank self s (.read id)
      { s with opId := some id, readlist := fun _ => none, acklist := ∅, reading := true }
      [.broadcast (.readProc id)]
  | write {v : V} {id : I} : Reacts procs rank self s (.write v id)
      { s with opId := some id, writeval := v, acklist := ∅, readlist := fun _ => none, writing := true }
      [.broadcast (.readProc id)]
  | readProc {p : N} {id : I} : Reacts procs rank self s (.deliver p (.readProc id)) s
      [.send p (.value id s.ts s.wr s.val)]
  | valueNone {q : N} {id : I} {e : ℕ × R × V} : ¬ (some id = s.opId ∧ s.writePhase = false) →
      Reacts procs rank self s (.deliver q (.value id e.1 e.2.1 e.2.2)) s []
  | valueFew {q : N} {id : I} {e : ℕ × R × V} {readlist : N → Option (ℕ × R × V)} :
      some id = s.opId → s.writePhase = false → readlist = Function.update s.readlist q (some e) →
      ¬ (procs.card / 2 < entries procs readlist ∧ (s.reading = true ∨ s.writing = true)) →
      Reacts procs rank self s (.deliver q (.value id e.1 e.2.1 e.2.2)) { s with readlist } []
  | valueRead {q : N} {id : I} {e : ℕ × R × V} {readlist : N → Option (ℕ × R × V)} {maxts : ℕ} {rr : R}
      {readval : V} : some id = s.opId → s.writePhase = false →
      readlist = Function.update s.readlist q (some e) → procs.card / 2 < entries procs readlist →
      IsHighest (Function.update readlist self (some (s.ts, s.wr, s.val))) (maxts, rr, readval) →
      s.reading = true →
      Reacts procs rank self s (.deliver q (.value id e.1 e.2.1 e.2.2))
        { s with readval, readlist := fun _ => none, acklist := ∅, writePhase := true }
        [.broadcast (.writeProc id maxts rr readval)]
  | valueWrite {q : N} {id : I} {e : ℕ × R × V} {readlist : N → Option (ℕ × R × V)} {maxts : ℕ} {rr : R}
      {readval : V} : some id = s.opId → s.writePhase = false →
      readlist = Function.update s.readlist q (some e) → procs.card / 2 < entries procs readlist →
      IsHighest (Function.update readlist self (some (s.ts, s.wr, s.val))) (maxts, rr, readval) →
      s.reading = false → s.writing = true →
      Reacts procs rank self s (.deliver q (.value id e.1 e.2.1 e.2.2))
        { s with readval, readlist := fun _ => none, acklist := ∅, writePhase := true,
                 ts := maxts + 1, wr := rank self, val := s.writeval }
        [.store (maxts + 1) (rank self) s.writeval,
          .broadcast (.writeProc id (maxts + 1) (rank self) s.writeval)]
  | writeProcNewer {p : N} {id : I} {ts : ℕ} {wr : R} {v : V} : toLex (s.ts, s.wr) < toLex (ts, wr) →
      Reacts procs rank self s (.deliver p (.writeProc id ts wr v)) { s with ts, wr, val := v }
        [.store ts wr v, .send p (.ack id)]
  | writeProcOlder {p : N} {id : I} {ts : ℕ} {wr : R} {v : V} : ¬ toLex (s.ts, s.wr) < toLex (ts, wr) →
      Reacts procs rank self s (.deliver p (.writeProc id ts wr v)) s [.send p (.ack id)]
  | ackNone {q : N} {id : I} : ¬ (some id = s.opId ∧ s.writePhase = true) →
      Reacts procs rank self s (.deliver q (.ack id)) s []
  | ackFew {q : N} {id : I} : some id = s.opId → s.writePhase = true →
      ¬ (procs.card / 2 < (insert q s.acklist).card ∧ (s.reading = true ∨ s.writing = true)) →
      Reacts procs rank self s (.deliver q (.ack id)) { s with acklist := insert q s.acklist } []
  | ackRead {q : N} {id : I} : some id = s.opId → s.writePhase = true →
      procs.card / 2 < (insert q s.acklist).card → s.reading = true →
      Reacts procs rank self s (.deliver q (.ack id))
        { s with acklist := ∅, writePhase := false, reading := false } [.readReturn s.readval]
  | ackWrite {q : N} {id : I} : some id = s.opId → s.writePhase = true →
      procs.card / 2 < (insert q s.acklist).card → s.reading = false → s.writing = true →
      Reacts procs rank self s (.deliver q (.ack id))
        { s with acklist := ∅, writePhase := false, writing := false } [.writeReturn]

/-! ### All instances -/

@[ext]
structure State (N R V I : Type) where
  /-- `none` for one that has crashed -/
  instances : N → Option (Instance N R V I)
  /-- what each has stored last -/
  stable : N → ℕ × R × V
  /-- sender, receiver and message -/
  messages : Set (N × N × Message R V I)
  /-- the identifiers generated -/
  ids : Set I

/-- What is stored last. -/
def stored (s : ℕ × R × V) (l : List (Trigger N R V I)) : ℕ × R × V :=
  l.foldl (fun s t => match t with
    | .store ts wr v => (ts, wr, v)
    | _ => s) s

/-- The messages that `self` triggers. -/
def sent (procs : Finset N) (self : N) (l : List (Trigger N R V I)) : Set (N × N × Message R V I) :=
  {x | x.1 = self ∧ (.send x.2.1 x.2.2 ∈ l ∨ .broadcast x.2.2 ∈ l ∧ x.2.1 ∈ procs)}

/-- What is returned for operation `id`. -/
def returns (id : Option I) (l : List (Trigger N R V I)) : List (HEvent I V) :=
  id.toList.flatMap fun id => l.filterMap fun
    | .readReturn v => some (.respond id (some v))
    | .writeReturn => some (.respond id none)
    | _ => none

/-- Instance `p` goes on as `inst`, after it has triggered `l`. -/
def State.after (procs : Finset N) (st : State N R V I) (p : N) (inst : Option (Instance N R V I))
    (l : List (Trigger N R V I)) : State N R V I where
  instances := Function.update st.instances p inst
  stable := Function.update st.stable p (stored (st.stable p) l)
  messages := st.messages ∪ sent procs p l
  ids := st.ids

/-- A reaction comes to its end, or the instance crashes in the middle of it. -/
def Ends (s : Instance N R V I) (l : List (Trigger N R V I)) (inst : Option (Instance N R V I))
    (l' : List (Trigger N R V I)) : Prop :=
  inst = some s ∧ l' = l ∨ inst = none ∧ l' <+: l

/-- The event of a client's call. -/
def upon (id : I) : Call V → Upon N R V I
  | .read => .read id
  | .write v => .write v id

/-- The steps of all instances together, with what clients see of them. -/
inductive Step (procs : Finset N) (rank : N → R) (blank : V) (st : State N R V I) :
    List (HEvent I V) → State N R V I → Prop
  /-- an instance has one operation at a time -/
  | client {p : N} {s s' : Instance N R V I} {id : I} {c : Call V} {l l' : List (Trigger N R V I)}
      {inst : Option (Instance N R V I)} : p ∈ procs → st.instances p = some s → s.reading = false →
      s.writing = false → id ∉ st.ids → Reacts procs rank p s (upon id c) s' l → Ends s' l inst l' →
      Step procs rank blank st [.invoke id c] { st.after procs p inst l' with ids := insert id st.ids }
  | deliver {q p : N} {m : Message R V I} {s s' : Instance N R V I} {l l' : List (Trigger N R V I)}
      {inst : Option (Instance N R V I)} : (q, p, m) ∈ st.messages → st.instances p = some s →
      Reacts procs rank p s (.deliver q m) s' l → Ends s' l inst l' →
      Step procs rank blank st (returns s.opId l') (st.after procs p inst l')
  | crash {p : N} {s : Instance N R V I} : st.instances p = some s →
      Step procs rank blank st [] (st.after procs p none [])
  | recovery {p : N} : p ∈ procs → st.instances p = none →
      Step procs rank blank st [] (st.after procs p (some (recovery blank (st.stable p))) [])

/-- `Init` everywhere. -/
def init (procs : Finset N) (zero : R) (blank : V) : State N R V I where
  instances p := if p ∈ procs then some (recovery blank (0, zero, blank)) else none
  stable _ := (0, zero, blank)
  messages := ∅
  ids := ∅

end AtomicDisk.Nnar
