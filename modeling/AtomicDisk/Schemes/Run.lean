import Mathlib.Tactic.Common
import Mathlib.Order.Basic
import Mathlib.Data.List.Pairwise

/-! Runs of a labelled step function. A machine is `step : S → E → Option (S × O)`: in state `s` the
    event `e` is either not enabled (`none`) or leads to one next state with one output. A `Run` is
    a finite sequence of enabled events from `init`, all of whose steps meet a side condition
    `P s e`; its trace keeps, for every step, the state before, the event, the output and the state
    after, so that a property of whole runs can be stated on the trace.

        init ──e₁──▶ s₁ ──e₂──▶ s₂ ── … ──eₙ──▶ sₙ
              o₁          o₂               oₙ            trace = [⟨init,e₁,o₁,s₁⟩, …] -/

namespace AtomicDisk.Schemes

/-- One step of a run. -/
structure Entry (S E O : Type) where
  pre : S
  event : E
  out : O
  post : S

variable {S E O : Type}

/-- Runs of `step` from `init` whose steps all meet `P`, with their trace and last state. -/
inductive Run (step : S → E → Option (S × O)) (P : S → E → Prop) (init : S) :
    List (Entry S E O) → S → Prop
  | nil : Run step P init [] init
  | snoc {tr s e s' o} : Run step P init tr s → P s e → step s e = some (s', o) →
      Run step P init (tr ++ [⟨s, e, o, s'⟩]) s'

/-- Replay a list of events, collecting the trace. -/
def exec (step : S → E → Option (S × O)) : S → List E → Option (List (Entry S E O) × S)
  | s, [] => some ([], s)
  | s, e :: es =>
    match step s e with
    | none => none
    | some (s', o) => (exec step s' es).map fun r => (⟨s, e, o, s'⟩ :: r.1, r.2)

variable {step : S → E → Option (S × O)} {P Q : S → E → Prop} {init s : S}
  {tr : List (Entry S E O)}

/-- A replay is made of the events that are replayed. -/
theorem exec_events {es : List E} {s' : S} (h : exec step s es = some (tr, s')) :
    tr.map Entry.event = es := by
  induction es generalizing s tr with
  | nil =>
    obtain ⟨rfl, rfl⟩ : tr = [] ∧ s' = s := by simpa [exec, eq_comm] using h
    rfl
  | cons e es ih =>
    rw [exec] at h
    cases hs : step s e with
    | none => simp [hs] at h
    | some r =>
      simp only [hs, Option.map_eq_some_iff] at h
      obtain ⟨⟨tr', s''⟩, hex, heq⟩ := h
      obtain ⟨rfl, rfl⟩ : (⟨s, e, r.2, r.1⟩ : Entry S E O) :: tr' = tr ∧ s'' = s' := by
        simpa using heq
      rw [List.map_cons, ih hex]

namespace Run

/-- A run meets every side condition that follows from its own in the states it reaches. -/
theorem imp (h : Run step P init tr s) (hPQ : ∀ tr s e, Run step P init tr s → P s e → Q s e) :
    Run step Q init tr s := by
  induction h with
  | nil => exact .nil
  | snoc hr hP hs ih => exact .snoc ih (hPQ _ _ _ hr hP) hs

/-- A run stays a run under a weaker side condition. -/
theorem weaken (h : Run step P init tr s) (hPQ : ∀ s e, P s e → Q s e) : Run step Q init tr s :=
  h.imp fun _ s e _ => hPQ s e

/-- What the trace invariant `I` needs: it holds of the empty run and every step keeps it. -/
theorem invariant {I : List (Entry S E O) → S → Prop} (h0 : I [] init)
    (hstep : ∀ tr (x : Entry S E O), Run step P init tr x.pre → I tr x.pre → P x.pre x.event →
      step x.pre x.event = some (x.post, x.out) → I (tr ++ [x]) x.post)
    (h : Run step P init tr s) : I tr s := by
  induction h with
  | nil => exact h0
  | @snoc tr s e s' o hr hP hs ih => exact hstep tr ⟨s, e, o, s'⟩ hr ih hP hs

/-- Cutting a run before one of its entries leaves a run that ends where the entry starts. -/
theorem split {l₁ l₂ : List (Entry S E O)} {x : Entry S E O} (h : Run step P init tr s)
    (htr : tr = l₁ ++ x :: l₂) :
    Run step P init l₁ x.pre ∧ P x.pre x.event ∧ step x.pre x.event = some (x.post, x.out) := by
  induction h generalizing l₂ with
  | nil => simp at htr
  | @snoc tr s e s' o hr hP hs ih =>
    rcases List.eq_nil_or_concat l₂ with rfl | ⟨l, y, rfl⟩
    · -- the entry is the last one
      obtain ⟨rfl, hx⟩ := List.append_inj' htr rfl
      obtain rfl : (⟨s, e, o, s'⟩ : Entry S E O) = x := by simpa using hx
      exact ⟨hr, hP, hs⟩
    · rw [List.concat_eq_append, ← List.cons_append, ← List.append_assoc] at htr
      exact ih (List.append_inj' htr rfl).1

/-- Every entry of a run is a step of the machine that meets the side condition. -/
theorem entry {x : Entry S E O} (h : Run step P init tr s) (hx : x ∈ tr) :
    ∃ l, Run step P init l x.pre ∧ P x.pre x.event ∧ step x.pre x.event = some (x.post, x.out) := by
  obtain ⟨l₁, l₂, rfl⟩ := List.append_of_mem hx
  exact ⟨l₁, h.split rfl⟩

/-- A run can be continued by replaying events that meet the side condition. -/
theorem append_exec {es : List E} {tr₁ tr₂ : List (Entry S E O)} {s₁ s₂ : S}
    (h : Run step P init tr₁ s₁) (he : exec step s₁ es = some (tr₂, s₂))
    (hP : ∀ x ∈ tr₂, P x.pre x.event) : Run step P init (tr₁ ++ tr₂) s₂ := by
  induction es generalizing tr₁ tr₂ s₁ with
  | nil =>
    obtain ⟨rfl, rfl⟩ : tr₂ = [] ∧ s₂ = s₁ := by simpa [exec, eq_comm] using he
    simpa using h
  | cons e es ih =>
    rw [exec] at he
    cases hs : step s₁ e with
    | none => simp [hs] at he
    | some r =>
      obtain ⟨s', o⟩ := r
      simp only [hs, Option.map_eq_some_iff] at he
      obtain ⟨⟨tr, s''⟩, hex, htr⟩ := he
      obtain ⟨rfl, rfl⟩ : (⟨s₁, e, o, s'⟩ : Entry S E O) :: tr = tr₂ ∧ s'' = s₂ := by
        simpa using htr
      have hrun := Run.snoc h (hP ⟨s₁, e, o, s'⟩ (by simp)) hs
      simpa using ih hrun hex fun x hx => hP x (List.mem_cons_of_mem _ hx)

/-- Replayed events that meet the side condition are a run. -/
theorem of_exec {es : List E} (he : exec step init es = some (tr, s))
    (hP : ∀ x ∈ tr, P x.pre x.event) : Run step P init tr s := by
  have h0 : Run step P init [] init := .nil
  simpa using append_exec h0 he hP

/-- A run, from events that can be replayed, with what its trace and last state are observed to be. -/
theorem exists_of_exec (step : S → E → Option (S × O)) (P : S → E → Prop) (init : S)
    [∀ s e, Decidable (P s e)] (es : List E) (observe : List (Entry S E O) → S → Bool)
    (h : (exec step init es).any (fun r =>
      decide (∀ x ∈ r.1, P x.pre x.event) && observe r.1 r.2) = true) :
    ∃ tr s, Run step P init tr s ∧ observe tr s = true := by
  cases he : exec step init es with
  | none => simp [he] at h
  | some r =>
    rw [he, Option.any_some, Bool.and_eq_true, decide_eq_true_eq] at h
    exact ⟨r.1, r.2, of_exec he h.1, h.2⟩

/-- A quantity that no step lowers is, at every entry, between its first and its last value, and
    grows along the trace. -/
theorem monotone {α : Type*} [Preorder α] (f : S → α) (h : Run step P init tr s)
    (hstep : ∀ tr (x : Entry S E O), Run step P init tr x.pre → P x.pre x.event →
      step x.pre x.event = some (x.post, x.out) → f x.pre ≤ f x.post) :
    (∀ x ∈ tr, f x.post ≤ f s ∧ f x.pre ≤ f x.post) ∧
      tr.Pairwise fun x y => f x.post ≤ f y.pre := by
  induction h with
  | nil => simp
  | @snoc tr s e s' o hr hP hs ih =>
    have hle : f s ≤ f s' := hstep tr ⟨s, e, o, s'⟩ hr hP hs
    refine ⟨fun x hx => ?_, ?_⟩
    · rcases List.mem_append.mp hx with hx | hx
      · exact ⟨(ih.1 x hx).1.trans hle, (ih.1 x hx).2⟩
      · obtain rfl := List.mem_singleton.mp hx; exact ⟨le_refl _, hle⟩
    · rw [List.pairwise_append]
      refine ⟨ih.2, List.pairwise_singleton _ _, fun x hx y hy => ?_⟩
      obtain rfl := List.mem_singleton.mp hy
      exact (ih.1 x hx).1

/-- The trace determines the last state. -/
theorem last_eq {s' : S} (h : Run step P init tr s) (h' : Run step P init tr s') : s = s' := by
  cases h with
  | nil =>
    generalize htr : ([] : List (Entry S E O)) = l at h'
    cases h' with
    | nil => rfl
    | snoc => simp at htr
  | @snoc l s₁ e s₂ o _ _ _ =>
    generalize htr : l ++ [(⟨s₁, e, o, s⟩ : Entry S E O)] = l' at h'
    cases h' with
    | nil => simp at htr
    | snoc =>
      have hlast := (List.append_inj' htr rfl).2
      simp only [List.cons.injEq, Entry.mk.injEq] at hlast
      exact hlast.1.2.2.2

/-- A quantity that no step lowers is at every earlier state at most what it is at the last. -/
theorem le_last {α : Type*} [Preorder α] (f : S → α) (h : Run step P init tr s)
    (hstep : ∀ tr (x : Entry S E O), Run step P init tr x.pre → P x.pre x.event →
      step x.pre x.event = some (x.post, x.out) → f x.pre ≤ f x.post)
    {l₁ l₂ : List (Entry S E O)} {s₁ : S} (h₁ : Run step P init l₁ s₁) (htr : tr = l₁ ++ l₂) :
    f s₁ ≤ f s := by
  cases l₂ with
  | nil =>
    rw [List.append_nil] at htr
    subst htr
    rw [h₁.last_eq h]
  | cons x l₂ =>
    obtain ⟨hrun, -, -⟩ := h.split htr
    obtain ⟨hle, -⟩ := h.monotone f hstep
    rw [h₁.last_eq hrun]
    obtain ⟨hpost, hpre⟩ := hle x (by simp [htr])
    exact hpre.trans hpost

end Run

/-! ### The part of a list after its first element with a property -/

/-- What follows the first element that satisfies `p` (nothing, when there is none). -/
def after {α : Type} (p : α → Bool) : List α → List α
  | [] => []
  | a :: l => if p a then l else after p l

section after

variable {α : Type} {p : α → Bool}

theorem after_subset : ∀ {l : List α}, ∀ a ∈ after p l, a ∈ l
  | b :: l, a, ha => by
    rw [after] at ha
    split at ha
    · exact List.mem_cons_of_mem _ ha
    · exact List.mem_cons_of_mem _ (after_subset a ha)

/-- Once an element with the property is there, later elements are appended behind it. -/
theorem after_append : ∀ {l : List α} (m : List α), (∃ a ∈ l, p a) → after p (l ++ m) = after p l ++ m
  | [], _, h => by simp at h
  | b :: l, m, h => by
    by_cases hb : p b
    · simp [after, hb]
    · have hl : ∃ a ∈ l, p a := by
        obtain ⟨a, ha, hpa⟩ := h
        rcases List.mem_cons.mp ha with rfl | ha
        · exact absurd hpa hb
        · exact ⟨a, ha, hpa⟩
      simp [after, hb, after_append m hl]

end after

/-- Of two distinct elements one comes first. -/
theorem pairwise_either {α : Type} {R : α → α → Prop} {l : List α} {x y : α} (h : l.Pairwise R)
    (hx : x ∈ l) (hy : y ∈ l) (hne : x ≠ y) : R x y ∨ R y x := by
  have hsymm : Std.Symm fun a b => R a b ∨ R b a := ⟨fun _ _ => Or.symm⟩
  have hboth : l.Pairwise fun a b => R a b ∨ R b a := h.imp Or.inl
  exact hboth.forall hx hy hne

/-- Two elements in this order among what the elements of a list contribute: both are contributed by
    one of them, or the second by a later one. -/
theorem pair_sublist_flatMap {α β : Type} {f : α → List β} {a b : β} : ∀ {l : List α},
    List.Sublist [a, b] (l.flatMap f) → (∃ x ∈ l, List.Sublist [a, b] (f x)) ∨
      ∃ l₁ x l₂, l = l₁ ++ x :: l₂ ∧ a ∈ f x ∧ ∃ y ∈ l₂, b ∈ f y
  | [], h => by simp at h
  | x :: l, h => by
    rw [List.flatMap_cons, List.sublist_append_iff] at h
    obtain ⟨m₁, m₂, hm, h₁, h₂⟩ := h
    rcases m₁ with _ | ⟨u, _ | ⟨v, m₁⟩⟩
    · rw [List.nil_append] at hm
      subst hm
      rcases pair_sublist_flatMap h₂ with ⟨y, hy, hsub⟩ | ⟨l₁, y, l₂, rfl, ha, hb⟩
      · exact Or.inl ⟨y, List.mem_cons_of_mem _ hy, hsub⟩
      · exact Or.inr ⟨x :: l₁, y, l₂, rfl, ha, hb⟩
    · obtain ⟨rfl, rfl⟩ : a = u ∧ [b] = m₂ := by simpa using hm
      obtain ⟨y, hy, hb⟩ := List.mem_flatMap.mp (List.singleton_sublist.mp h₂)
      exact Or.inr ⟨[], x, l, rfl, List.singleton_sublist.mp h₁, y, hy, hb⟩
    · obtain ⟨rfl, rfl, hnil⟩ : a = u ∧ b = v ∧ m₁ ++ m₂ = [] := by
        simpa [eq_comm] using hm
      obtain ⟨rfl, -⟩ := List.append_eq_nil_iff.mp hnil
      exact Or.inl ⟨x, List.mem_cons_self .., h₁⟩

end AtomicDisk.Schemes
