import Mathlib.Data.List.Induction
import ME2U.Found.Runs

/-!
# Transducers

A transducer reads inputs one after the other, and for each of them it goes to a state and puts out
a word. A system of steps implements it if each step takes in one input, as the transducer does, and
if every input that is possible can be taken in.

* `Transducer.run_append`: what comes of inputs in a row.
* `Transducer.Along`: inputs that are possible where they are read.
* `Implements.run_iff`: the system does what the transducer does on such inputs, and it can do all
  of that.
-/

namespace ME2U

/-- The next state on an input, and what is put out. -/
structure Transducer (ι σ ο : Type) where
  step : σ → ι → σ × List ο

namespace Transducer

variable {ι σ ο : Type} (T : Transducer ι σ ο)

/-- The state after some inputs, and what has been put out. -/
def run (s : σ) : List ι → σ × List ο
  | [] => (s, [])
  | i :: is => ((run (T.step s i).1 is).1, (T.step s i).2 ++ (run (T.step s i).1 is).2)

/-- A run over two inputs in a row, -/
theorem run_append (s : σ) (is js : List ι) :
    T.run s (is ++ js) = ((T.run (T.run s is).1 js).1,
      (T.run s is).2 ++ (T.run (T.run s is).1 js).2) := by
  induction is generalizing s with
  | nil => rfl
  | cons i is ih => simp only [List.cons_append, run, ih, List.append_assoc]

/-- and over one input more. -/
theorem run_concat (s : σ) (is : List ι) (i : ι) : T.run s (is ++ [i]) =
    ((T.step (T.run s is).1 i).1, (T.run s is).2 ++ (T.step (T.run s is).1 i).2) := by
  rw [run_append, run, run, List.append_nil]

/-- Each input is possible where it is read. -/
def Along (P : σ → ι → Prop) (s : σ) : List ι → Prop
  | [] => True
  | i :: is => P s i ∧ Along P (T.step s i).1 is

/-- A property of every input so far and of the next. -/
theorem along_concat {P : σ → ι → Prop} {s : σ} {is : List ι} {i : ι} :
    T.Along P s (is ++ [i]) ↔ T.Along P s is ∧ P (T.run s is).1 i := by
  induction is generalizing s with
  | nil => simp [Along, run]
  | cons j is ih =>
      rw [List.cons_append, Along, Along, ih, and_assoc]
      rfl

end Transducer

/-- A system that implements a transducer from a state of it, on the inputs that are possible by
`P`. -/
structure Implements {ι σ ο τ ℓ : Type} (T : Transducer ι σ ο) (s₀ : σ)
    (P : σ → ι → Prop) (init : τ → Prop) (cond : τ → ℓ → Prop) (step : τ → ℓ → τ → Prop) where
  /-- The state that the system shows. -/
  shows : τ → σ
  /-- What it has taken in, and what it has put out. -/
  taken : τ → List ι
  put : τ → List ο
  begins : ∃ t, init t
  start : ∀ t, init t → shows t = s₀ ∧ taken t = [] ∧ put t = []
  next : ∀ t e t', cond t e → step t e t' → ∃ i, P (shows t) i ∧ taken t' = taken t ++ [i] ∧
    shows t' = (T.step (shows t) i).1 ∧ put t' = put t ++ (T.step (shows t) i).2
  takes : ∀ t i, P (shows t) i → ∃ e t', cond t e ∧ step t e t' ∧ taken t' = taken t ++ [i]

namespace Implements

variable {ι σ ο τ ℓ : Type} {T : Transducer ι σ ο} {s₀ : σ} {P : σ → ι → Prop} {init : τ → Prop}
  {cond : τ → ℓ → Prop} {step : τ → ℓ → τ → Prop} (I : Implements T s₀ P init cond step)

/-- **The system does what the transducer does**, on inputs that are possible. -/
theorem run {t : τ} (h : Reaches init cond step t) :
    T.Along P s₀ (I.taken t) ∧ T.run s₀ (I.taken t) = (I.shows t, I.put t) := by
  induction h with
  | start hinit =>
      obtain ⟨hshows, htaken, hput⟩ := I.start _ hinit
      rw [hshows, htaken, hput]
      exact ⟨trivial, rfl⟩
  | step _ hcond hst ih =>
      obtain ⟨halong, hrun⟩ := ih
      obtain ⟨i, hi, htaken, hshows, hput⟩ := I.next _ _ _ hcond hst
      rw [htaken, T.run_concat, T.along_concat, hrun, hshows, hput]
      exact ⟨⟨halong, hi⟩, rfl⟩

/-- **It can do all of that.** -/
theorem exists_reaches {is : List ι} (h : T.Along P s₀ is) :
    ∃ t, Reaches init cond step t ∧ I.taken t = is := by
  induction is using List.reverseRecOn with
  | nil =>
      obtain ⟨t, ht⟩ := I.begins
      exact ⟨t, .start ht, (I.start t ht).2.1⟩
  | append_singleton is i ih =>
      obtain ⟨halong, hi⟩ := T.along_concat.mp h
      obtain ⟨t, ht, rfl⟩ := ih halong
      rw [(I.run ht).2] at hi
      obtain ⟨e, t', hcond, hst, htaken⟩ := I.takes t i hi
      exact ⟨t', .step ht hcond hst, htaken⟩

/-- **The runs of the system are those of the transducer.** -/
theorem run_iff {is : List ι} {s : σ} {os : List ο} :
    (∃ t, Reaches init cond step t ∧ I.taken t = is ∧ I.shows t = s ∧ I.put t = os) ↔
      T.Along P s₀ is ∧ T.run s₀ is = (s, os) := by
  constructor
  · rintro ⟨t, ht, rfl, rfl, rfl⟩
    exact I.run ht
  · rintro ⟨halong, hrun⟩
    obtain ⟨t, ht, rfl⟩ := I.exists_reaches halong
    obtain ⟨hs, hos⟩ := Prod.mk.inj ((I.run ht).2.symm.trans hrun)
    exact ⟨t, ht, rfl, hs, hos⟩

end Implements

end ME2U
