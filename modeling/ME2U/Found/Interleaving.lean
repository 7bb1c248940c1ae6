import Mathlib.Logic.Function.Basic
import Mathlib.Tactic.Common

/-!
# Threads that share a state

Threads take turns on a shared state, in any order. What a thread knows of the shared state is good
as long as the others only do to it what the thread relies on.

* `Discipline`: what holds of the shared state, what each thread knows, and what it relies on, with
  the proof that its knowledge outlives that.
* `Discipline.Obeyed.turn`: a thread that keeps to it, and to what the others rely on, keeps
  everybody's knowledge.
* `Discipline.Obeyed.outside`: so does what happens outside of the threads.
* `Backed`: everything on a record has its warrant in what was put on it before.
-/

namespace ME2U

/-- A discipline for threads `ι` with local states `τ` and the shared state `σ`. -/
structure Discipline (ι τ σ : Type) where
  /-- What holds of the shared state between any two steps. -/
  inv : σ → Prop
  /-- What a thread knows of the shared state where it stands. -/
  knows : ι → τ → σ → Prop
  /-- What a thread relies on: what the others may do to the shared state. -/
  rely : ι → σ → σ → Prop
  /-- The knowledge of a thread is good after what it relies on. -/
  stable : ∀ i l s s', inv s → knows i l s → rely i s s' → knows i l s'

namespace Discipline

variable {ι τ σ : Type} (D : Discipline ι τ σ)

/-- The shared state is as it should be, and what the threads know is so. -/
structure Obeyed (s : σ) (l : ι → τ) : Prop where
  inv : D.inv s
  knows : ∀ i, D.knows i (l i) s

variable {D} {s s' : σ} {l : ι → τ}

/-- **A turn of one thread**, which may end where it likes if it knows what it has to know there. -/
theorem Obeyed.turn [DecidableEq ι] (h : D.Obeyed s l) {i : ι} {t : τ} (hinv : D.inv s')
    (hknows : D.knows i t s') (hrely : ∀ j, j ≠ i → D.rely j s s') :
    D.Obeyed s' (Function.update l i t) := by
  refine ⟨hinv, fun j => ?_⟩
  by_cases hj : j = i
  · subst hj
    rw [Function.update_self]
    exact hknows
  · rw [Function.update_of_ne hj]
    exact D.stable j _ s s' h.inv (h.knows j) (hrely j hj)

/-- Something that no thread does. -/
theorem Obeyed.outside (h : D.Obeyed s l) (hinv : D.inv s') (hrely : ∀ j, D.rely j s s') :
    D.Obeyed s' l :=
  ⟨hinv, fun j => D.stable j _ s s' h.inv (h.knows j) (hrely j)⟩

end Discipline

/-! ## Records -/

variable {α : Type} {W W' : List α → α → Prop} {l : List α} {a : α}

/-- Every element has its warrant in those before it. -/
def Backed (W : List α → α → Prop) (l : List α) : Prop :=
  ∀ pre a post, l = pre ++ a :: post → W pre a

theorem Backed.nil : Backed W [] := by
  intro pre a post h
  simp at h

/-- The record goes on. -/
theorem Backed.append (h : Backed W l) (ha : W l a) : Backed W (l ++ [a]) := by
  intro pre a' post heq
  rcases List.eq_nil_or_concat post with rfl | ⟨post', a'', rfl⟩
  · obtain ⟨rfl, hlast⟩ := List.append_inj' heq rfl
    obtain rfl := List.singleton_inj.mp hlast
    exact ha
  · rw [List.concat_eq_append, ← List.cons_append, ← List.append_assoc] at heq
    exact h pre a' post' (List.append_inj' heq rfl).1

/-- The warrant may be weakened. -/
theorem Backed.mono (h : Backed W l) (himp : ∀ pre a, W pre a → W' pre a) : Backed W' l :=
  fun pre a post heq => himp pre a (h pre a post heq)

/-- What is on the record had its warrant at some time. -/
theorem Backed.of_mem (h : Backed W l) (ha : a ∈ l) : ∃ pre, pre ⊆ l ∧ W pre a := by
  obtain ⟨pre, post, rfl⟩ := List.append_of_mem ha
  exact ⟨pre, List.subset_append_left _ _, h pre a post rfl⟩

end ME2U
