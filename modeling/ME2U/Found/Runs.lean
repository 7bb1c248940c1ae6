import Mathlib.Tactic.Common

/-!
# Runs of a system of labelled steps

* `Reaches init cond step s`: a run from an initial state reaches `s`, and every step of it was
  taken in a state and with a label that meet `cond`.
* `Reaches.invariant`: what holds initially and is preserved by the steps that meet the condition
  holds in every state reached.
* `Quiescent`: a state from which on nothing of a kind happens any more.
-/

namespace ME2U

variable {σ ℓ : Type}

/-- The states that runs reach whose steps all meet the condition. -/
inductive Reaches (init : σ → Prop) (cond : σ → ℓ → Prop) (step : σ → ℓ → σ → Prop) : σ → Prop
  | start {s : σ} : init s → Reaches init cond step s
  | step {s s' : σ} {e : ℓ} : Reaches init cond step s → cond s e → step s e s' →
      Reaches init cond step s'

/-- A run without a condition on its steps. -/
abbrev Reachable (init : σ → Prop) (step : σ → ℓ → σ → Prop) : σ → Prop :=
  Reaches init (fun _ _ => True) step

namespace Reaches

variable {init : σ → Prop} {cond : σ → ℓ → Prop} {step : σ → ℓ → σ → Prop}

/-- An invariant of the initial states and the steps holds wherever a run gets. -/
theorem invariant {I : σ → Prop} (hinit : ∀ s, init s → I s)
    (hstep : ∀ s e s', I s → cond s e → step s e s' → I s') {s : σ}
    (h : Reaches init cond step s) : I s := by
  induction h with
  | start hs => exact hinit _ hs
  | step _ hc hst ih => exact hstep _ _ _ ih hc hst

/-- A run that meets a condition meets every weaker one. -/
theorem weaken {cond' : σ → ℓ → Prop} (h : ∀ s e, cond s e → cond' s e) {s : σ}
    (hs : Reaches init cond step s) : Reaches init cond' step s := by
  induction hs with
  | start hs => exact .start hs
  | step _ hc hst ih => exact .step ih (h _ _ hc) hst

end Reaches

/-- A step without a condition. -/
theorem Reachable.next {init : σ → Prop} {step : σ → ℓ → σ → Prop} {s s' : σ} {e : ℓ}
    (h : Reachable init step s) (hst : step s e s') : Reachable init step s' :=
  .step h trivial hst

/-- From `s` on, no run changes what `f` looks at. -/
def Quiescent {τ : Type} (step : σ → ℓ → σ → Prop) (f : σ → τ) (s : σ) : Prop :=
  ∀ s', Reachable (· = s) step s' → f s' = f s

/-- A state that every step leaves as it is. -/
theorem Quiescent.of_fixed {τ : Type} {step : σ → ℓ → σ → Prop} {f : σ → τ} {s : σ}
    (h : ∀ e s', step s e s' → s' = s) : Quiescent step f s := by
  intro s' hs'
  have hsame : s' = s := by
    refine Reaches.invariant (I := (· = s)) (fun _ hinit => hinit) ?_ hs'
    rintro _ e s'' rfl - hst
    exact h e s'' hst
  rw [hsame]

end ME2U
