import AtomicDisk.Schemes.Run
import Mathlib.Data.Stream.Init
import Mathlib.Order.Filter.AtTopBot.Basic
import Mathlib.Order.Filter.Finite

/-! Executions that never end, for what happens at some time or other. The first `n` steps of one are a run, so
    what holds of every run holds at every time. -/

namespace AtomicDisk.Schemes
open Stream' Filter

variable {S E O : Type} {step : S → E → Option (S × O)} {P : S → E → Prop} {init s : S}
  {σ : Stream' (Entry S E O)}

/-- An endless execution of `step` from `init` whose steps all meet `P`. -/
structure Endless (step : S → E → Option (S × O)) (P : S → E → Prop) (init : S) (σ : Stream' (Entry S E O)) :
    Prop where
  start : (σ.get 0).pre = init
  next : ∀ n, (σ.get (n + 1)).pre = (σ.get n).post
  meets : ∀ n, P (σ.get n).pre (σ.get n).event
  steps : ∀ n, step (σ.get n).pre (σ.get n).event = some ((σ.get n).post, (σ.get n).out)

theorem Endless.run (h : Endless step P init σ) (n : ℕ) : Run step P init (σ.take n) (σ.get n).pre := by
  induction n with
  | zero =>
    rw [h.start]
    exact .nil
  | succ n ih =>
    rw [take_succ', h.next]
    exact .snoc ih (h.meets n) (h.steps n)

/-- What holds at one time and is kept by every later step holds from then on. -/
theorem Endless.stays (h : Endless step P init σ) {I : S → Prop} {n : ℕ} (hn : I (σ.get n).pre)
    (hkeep : ∀ k ≥ n, I (σ.get k).pre → I (σ.get k).post) {k : ℕ} (hk : n ≤ k) : I (σ.get k).pre := by
  induction k, hk using Nat.le_induction with
  | base => exact hn
  | succ k hk ih =>
    rw [h.next]
    exact hkeep k hk ih

theorem get_mem_take (σ : Stream' (Entry S E O)) {k n : ℕ} (h : k < n) : σ.get k ∈ σ.take n :=
  List.mem_of_getElem? (getElem?_take h)

/-- What one of the steps does has been done from some time on. -/
theorem eventually_done {D : Entry S E O → Prop} (h : ∃ k, D (σ.get k)) :
    ∀ᶠ n in atTop, ∃ x ∈ σ.take n, D x := by
  obtain ⟨k, hk⟩ := h
  refine eventually_atTop.mpr ⟨k + 1, fun n hn => ?_⟩
  exact ⟨σ.get k, get_mem_take σ hn, hk⟩

theorem Endless.cons {x : Entry S E O} (h : Endless step P x.post σ) (hP : P x.pre x.event)
    (hs : step x.pre x.event = some (x.post, x.out)) : Endless step P x.pre (cons x σ) := by
  refine ⟨rfl, fun n => ?_, fun n => ?_, fun n => ?_⟩
  · cases n with
    | zero => exact h.start
    | succ n => exact h.next n
  · cases n with
    | zero => exact hP
    | succ n => exact h.meets n
  · cases n with
    | zero => exact hs
    | succ n => exact h.steps n

/-- A run, and from its last state on an endless execution. -/
theorem Run.endless {tr : List (Entry S E O)} (hr : Run step P init tr s) (h : Endless step P s σ) :
    Endless step P init (tr ++ₛ σ) := by
  induction hr generalizing σ with
  | nil => exact h
  | @snoc tr s e s' o _ hP hs ih =>
    rw [append_append_stream]
    exact ih (h.cons (x := ⟨s, e, o, s'⟩) hP hs)

/-- A step that changes nothing can go on for ever. -/
theorem endless_const {e : E} {o : O} (hP : P s e) (hs : step s e = some (s, o)) :
    Endless step P s (const ⟨s, e, o, s⟩) :=
  ⟨rfl, fun _ => rfl, fun _ => hP, fun _ => hs⟩

section lasting

variable {tr : List (Entry S E O)} {x y : Entry S E O}

theorem get_of_mem (hx : x ∈ tr) (σ : Stream' (Entry S E O)) : ∃ k, (tr ++ₛ σ).get k = x := by
  obtain ⟨k, hk⟩ := mem_append_stream_left σ hx
  exact ⟨k, hk.symm⟩

/-- The steps of a run that is followed by one step for ever. -/
theorem get_followed (tr : List (Entry S E O)) (y : Entry S E O) (k : ℕ) :
    (tr ++ₛ const y).get k ∈ tr ∨ (tr ++ₛ const y).get k = y := by
  rcases Nat.lt_or_ge k tr.length with hk | hk
  · rw [get_append_left k tr (const y) hk]
    exact Or.inl (List.getElem_mem _)
  · obtain ⟨n, rfl⟩ := Nat.exists_eq_add_of_le hk
    rw [get_append_right, get_const]
    exact Or.inr rfl

/-- What every step keeps holds at the end, if it holds at some time. -/
theorem Endless.at_last (h : Endless step P init (tr ++ₛ const y)) {I : S → Prop} {n : ℕ}
    (hkeep : ∀ k, I ((tr ++ₛ const y).get k).pre → I ((tr ++ₛ const y).get k).post)
    (hn : I ((tr ++ₛ const y).get n).pre) : I y.pre := by
  have hlater := h.stays hn (fun k _ => hkeep k) (Nat.le_add_left n tr.length)
  rwa [get_append_right, get_const] at hlater

end lasting

end AtomicDisk.Schemes
