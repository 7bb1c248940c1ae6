import ME2U.Found.Runs

/-!
# Simulations

One system does what another one does: for each step of the first, the second takes some steps, and
the two are in related states again.

* `Simulation.reaches`: then each state that a run of the first reaches has a related one that a run
  of the second reaches.
-/

namespace ME2U

variable {σ τ ℓ ℓ' : Type}

/-- A run that goes on. -/
theorem Reaches.trans {init : τ → Prop} {cond : τ → ℓ' → Prop} {step : τ → ℓ' → τ → Prop} {t t' : τ}
    (h : Reaches init cond step t) (h' : Reaches (· = t) cond step t') :
    Reaches init cond step t' := by
  induction h' with
  | start heq =>
      rw [heq]
      exact h
  | step _ hcond hst ih => exact .step ih hcond hst

/-- A simulation of the runs from `init` whose steps meet `cond` by those from `init'` whose steps
meet `cond'`. -/
structure Simulation (init : σ → Prop) (cond : σ → ℓ → Prop) (step : σ → ℓ → σ → Prop)
    (init' : τ → Prop) (cond' : τ → ℓ' → Prop) (step' : τ → ℓ' → τ → Prop) where
  /-- How the states of the two are related. -/
  rel : σ → τ → Prop
  start : ∀ s, init s → ∃ t, init' t ∧ rel s t
  /-- A step is one or more steps of the other system, or none. -/
  next : ∀ s e s' t, Reaches init cond step s → Reaches init' cond' step' t → rel s t → cond s e →
    step s e s' → ∃ t', Reaches (· = t) cond' step' t' ∧ rel s' t'

/-- **What the one reaches, the other reaches too.** -/
theorem Simulation.reaches {init : σ → Prop} {cond : σ → ℓ → Prop} {step : σ → ℓ → σ → Prop}
    {init' : τ → Prop} {cond' : τ → ℓ' → Prop} {step' : τ → ℓ' → τ → Prop}
    (S : Simulation init cond step init' cond' step') {s : σ} (h : Reaches init cond step s) :
    ∃ t, Reaches init' cond' step' t ∧ S.rel s t := by
  induction h with
  | start hinit =>
      obtain ⟨t, ht, hrel⟩ := S.start _ hinit
      exact ⟨t, .start ht, hrel⟩
  | step h hcond hst ih =>
      obtain ⟨t, ht, hrel⟩ := ih
      obtain ⟨t', ht', hrel'⟩ := S.next _ _ _ t h ht hrel hcond hst
      exact ⟨t', ht.trans ht', hrel'⟩

end ME2U
