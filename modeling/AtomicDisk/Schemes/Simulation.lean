import AtomicDisk.Schemes.Run

/-! Simulation of one labelled machine by another, in which a step of the first is matched by one step of the
    second or by none. The relation is on whole traces, so that it can also say what the two runs have in
    common.

        s₀ ──e₁──▶ s₁ ──e₂──▶ s₂ ──e₃──▶ s₃        the run
        │R         │R         │R         │R
        t₀ ──f₁──▶ t₁ ════════ t₁ ──f₃──▶ t₃        the run that matches it -/

namespace AtomicDisk.Schemes

variable {S E O S' E' O' : Type}

/-- No step from `s`, or one. -/
inductive Matched (step : S → E → Option (S × O)) (P : S → E → Prop) (s : S) : List (Entry S E O) → S → Prop
  | stutter : Matched step P s [] s
  | one {e : E} {s' : S} {o : O} : P s e → step s e = some (s', o) → Matched step P s [⟨s, e, o, s'⟩] s'

variable {step : S → E → Option (S × O)} {step' : S' → E' → Option (S' × O')} {P : S → E → Prop}
  {P' : S' → E' → Prop} {init s : S} {init' s' : S'} {tr : List (Entry S E O)}

/-- What every step keeps is kept. -/
theorem Matched.keeps {f : S → Prop} {l : List (Entry S E O)} {t : S} (h : Matched step P s l t) (hs : f s)
    (hstep : ∀ x : Entry S E O, x.pre = s → step x.pre x.event = some (x.post, x.out) → f x.post) : f t := by
  cases h with
  | stutter => exact hs
  | @one e _ o _ hstepped => exact hstep ⟨s, e, o, t⟩ rfl hstepped

theorem Matched.run {l : List (Entry S E O)} {t : S} (h : Matched step P s l t) (hr : Run step P init tr s) :
    Run step P init (tr ++ l) t := by
  cases h with
  | stutter => simpa using hr
  | one hP hs => exact hr.snoc hP hs

/-- If every step from related states is matched so that the states stay related, every run is. -/
theorem Run.simulate {R : List (Entry S E O) → S → List (Entry S' E' O') → S' → Prop}
    (h0 : R [] init [] init')
    (hstep : ∀ tr (x : Entry S E O) tr' s', Run step P init tr x.pre → Run step' P' init' tr' s' →
      R tr x.pre tr' s' → P x.pre x.event → step x.pre x.event = some (x.post, x.out) →
      ∃ l s'', Matched step' P' s' l s'' ∧ R (tr ++ [x]) x.post (tr' ++ l) s'')
    (hr : Run step P init tr s) : ∃ tr' s', Run step' P' init' tr' s' ∧ R tr s tr' s' := by
  refine hr.invariant (I := fun tr s => ∃ tr' s', Run step' P' init' tr' s' ∧ R tr s tr' s')
    ⟨[], init', .nil, h0⟩ ?_
  rintro tr x hrun ⟨tr', s', hrun', hR⟩ hP hs
  obtain ⟨l, s'', hl, hR'⟩ := hstep tr x tr' s' hrun hrun' hR hP hs
  exact ⟨tr' ++ l, s'', hl.run hrun', hR'⟩

/-! ### Refinement mappings

    Against a machine that is given by a relation, a function of the states is enough, if it maps every step to a
    transition. -/

variable {T L : Type}

/-- The sequences of labelled transitions from `start`. -/
inductive Transitions (next : T → L → T → Prop) (start : T) : List L → T → Prop
  | nil : Transitions next start [] start
  | snoc {ls : List L} {t t' : T} {l : L} : Transitions next start ls t → next t l t' →
      Transitions next start (ls ++ [l]) t'

theorem Run.mapped {next : T → L → T → Prop} {abs : S → T} {label : Entry S E O → L}
    (hstep : ∀ tr (x : Entry S E O), Run step P init tr x.pre → P x.pre x.event →
      step x.pre x.event = some (x.post, x.out) → next (abs x.pre) (label x) (abs x.post))
    (hr : Run step P init tr s) : Transitions next (abs init) (tr.map label) (abs s) := by
  refine hr.invariant (I := fun tr s => Transitions next (abs init) (tr.map label) (abs s)) .nil ?_
  intro tr x hrun ih hP hs
  rw [List.map_append]
  exact .snoc ih (hstep tr x hrun hP hs)

end AtomicDisk.Schemes
