import Mathlib.Tactic.Common

/-!
# Computations with a state that survives failure

`Eff σ ε α` is a computation that reads and writes a state `σ` and either returns an `α` or
stops with an `ε`. The state reached is kept in both cases (`Eff.run` returns it beside the
outcome), so that what a program did before it stopped can still be talked about.

* `Eff.run_bind` and its two cases `Eff.run_bind_ok`, `Eff.run_bind_error` are the rules by
  which a run is peeled apart.
* `Eff.Keeps I m` says that `m` preserves the state predicate `I` however it ends; the rules
  `Eff.Keeps.pure`, `Eff.Keeps.bind`, `Eff.Keeps.ite`, … follow the shape of a program.
* `Eff.StopsOnly P m` says that `m` stops in no other ways than `P`, with rules of the same shape.
* `Eff.zoom` runs a computation on a part of a larger state.
-/

namespace ME2U

/-- A computation on the state `σ` that returns an `α` or stops with an `ε`. -/
structure Eff (σ ε α : Type) where
  /-- The outcome and the state reached, from a given state. -/
  run : σ → Except ε α × σ

namespace Eff

variable {σ τ ε ε' α β : Type}

instance : Monad (Eff σ ε) where
  pure a := ⟨fun s => (.ok a, s)⟩
  bind m f := ⟨fun s =>
    match m.run s with
    | (.ok a, s') => (f a).run s'
    | (.error e, s') => (.error e, s')⟩

/-- The current state. -/
def get : Eff σ ε σ := ⟨fun s => (.ok s, s)⟩

/-- Replace the state by a function of it. -/
def modify (f : σ → σ) : Eff σ ε Unit := ⟨fun s => (.ok (), f s)⟩

/-- Stop with `e`, in the current state. -/
def stop (e : ε) : Eff σ ε α := ⟨fun s => (.error e, s)⟩

/-- Lift a fallible pure value. -/
def lift (x : Except ε α) : Eff σ ε α := ⟨fun s => (x, s)⟩

/-- Run a computation on the part of the state that `get` reads and `put` writes back, with its
ways of stopping renamed. -/
def zoom (get : τ → σ) (put : σ → τ → τ) (rename : ε → ε') (m : Eff σ ε α) : Eff τ ε' α :=
  ⟨fun t => ((m.run (get t)).1.mapError rename, put (m.run (get t)).2 t)⟩

/-! ## Running -/

@[simp] theorem run_pure (a : α) (s : σ) : (pure a : Eff σ ε α).run s = (.ok a, s) := rfl

/-- A sequence runs its second part from where the first one left off, unless that stopped. -/
theorem run_bind (m : Eff σ ε α) (f : α → Eff σ ε β) (s : σ) :
    (m >>= f).run s =
      match m.run s with
      | (.ok a, s') => (f a).run s'
      | (.error e, s') => (.error e, s') := rfl

/-- A step that succeeds hands its value on, -/
theorem run_bind_ok {m : Eff σ ε α} {s s' : σ} {a : α} (h : m.run s = (.ok a, s'))
    (f : α → Eff σ ε β) : (m >>= f).run s = (f a).run s' := by
  rw [run_bind, h]

/-- and one that fails ends the computation. -/
theorem run_bind_error {m : Eff σ ε α} {s s' : σ} {e : ε} (h : m.run s = (.error e, s'))
    (f : α → Eff σ ε β) : (m >>= f).run s = (.error e, s') := by
  rw [run_bind, h]

/-- Sequences may be bracketed as one likes. -/
theorem bind_assoc {γ : Type} (m : Eff σ ε α) (f : α → Eff σ ε β) (g : β → Eff σ ε γ) :
    m >>= f >>= g = m >>= fun a => f a >>= g := by
  have hrun : ∀ s, (m >>= f >>= g).run s = (m >>= fun a => f a >>= g).run s := by
    intro s
    simp only [run_bind]
    rcases m.run s with ⟨_ | _, _⟩ <;> rfl
  exact congrArg Eff.mk (funext hrun)

/-- A sequence returns where both of its parts do. -/
theorem run_bind_eq_ok_iff {m : Eff σ ε α} {f : α → Eff σ ε β} {s s' : σ} {b : β} :
    (m >>= f).run s = (.ok b, s') ↔
      ∃ a s₁, m.run s = (.ok a, s₁) ∧ (f a).run s₁ = (.ok b, s') := by
  rw [run_bind]
  rcases m.run s with ⟨e | a, s₁⟩ <;> simp

@[simp] theorem run_pure_bind (a : α) (f : α → Eff σ ε β) (s : σ) :
    ((pure a : Eff σ ε α) >>= f).run s = (f a).run s := rfl

@[simp] theorem run_get_bind (f : σ → Eff σ ε β) (s : σ) :
    ((get : Eff σ ε σ) >>= f).run s = (f s).run s := rfl

@[simp] theorem run_modify (f : σ → σ) (s : σ) :
    (modify f : Eff σ ε Unit).run s = (.ok (), f s) := rfl

@[simp] theorem run_modify_bind (g : σ → σ) (f : Unit → Eff σ ε β) (s : σ) :
    ((modify g : Eff σ ε Unit) >>= f).run s = (f ()).run (g s) := rfl

@[simp] theorem run_stop (e : ε) (s : σ) : (stop e : Eff σ ε α).run s = (.error e, s) := rfl

@[simp] theorem run_stop_bind (e : ε) (f : α → Eff σ ε β) (s : σ) :
    ((stop e : Eff σ ε α) >>= f).run s = (.error e, s) := rfl

@[simp] theorem run_lift_ok_bind (a : α) (f : α → Eff σ ε β) (s : σ) :
    ((lift (.ok a) : Eff σ ε α) >>= f).run s = (f a).run s := rfl

/-- A sequence that begins with a pure value returns where that is one. -/
theorem run_lift_bind_eq_ok_iff {x : Except ε α} {f : α → Eff σ ε β} {s s' : σ} {b : β} :
    ((lift x : Eff σ ε α) >>= f).run s = (.ok b, s') ↔ ∃ a, x = .ok a ∧
      (f a).run s = (.ok b, s') := by
  rw [run_bind]
  cases x <;> simp [lift]

theorem run_ite (p : Prop) [Decidable p] (m n : Eff σ ε α) (s : σ) :
    (if p then m else n).run s = if p then m.run s else n.run s :=
  apply_ite (fun m : Eff σ ε α => m.run s) p m n

@[simp] theorem run_zoom (g : τ → σ) (put : σ → τ → τ) (f : ε → ε') (m : Eff σ ε α) (t : τ) :
    (zoom g put f m).run t = ((m.run (g t)).1.mapError f, put (m.run (g t)).2 t) := rfl

/-- Where a zoomed computation returns, the rest runs from the state with the part put back. -/
theorem run_zoom_bind_ok {g : τ → σ} {put : σ → τ → τ} {f : ε → ε'} {m : Eff σ ε α} {t : τ} {s' : σ}
    {a : α} (h : m.run (g t) = (.ok a, s')) (k : α → Eff τ ε' β) :
    (zoom g put f m >>= k).run t = (k a).run (put s' t) := by
  rw [run_bind, run_zoom, h]
  rfl

/-- Where a zoomed computation stops, so does the sequence. -/
theorem run_zoom_bind_error {g : τ → σ} {put : σ → τ → τ} {f : ε → ε'} {m : Eff σ ε α} {t : τ}
    {s' : σ} {e : ε} (h : m.run (g t) = (.error e, s')) (k : α → Eff τ ε' β) :
    (zoom g put f m >>= k).run t = (.error (f e), put s' t) := by
  rw [run_bind, run_zoom, h]
  rfl

/-! ## Loops -/

/-- What a computation with loops does when it may take as many steps as they need. -/
def Settles (m : ℕ → Eff σ ε α) (s : σ) (out : Except ε α × σ) : Prop :=
  ∃ k, ∀ fuel, k ≤ fuel → (m fuel).run s = out

/-- It does one thing. -/
theorem Settles.unique {m : ℕ → Eff σ ε α} {s : σ} {out out' : Except ε α × σ}
    (h : Settles m s out) (h' : Settles m s out') : out = out' := by
  obtain ⟨k, hk⟩ := h
  obtain ⟨k', hk'⟩ := h'
  exact (hk _ (Nat.le_max_left k k')).symm.trans (hk' _ (Nat.le_max_right k k'))

/-! ## State predicates a computation preserves -/

/-- `m` preserves `I`, whether it returns or stops. -/
def Keeps (I : σ → Prop) (m : Eff σ ε α) : Prop := ∀ s, I s → I (m.run s).2

namespace Keeps

variable {I : σ → Prop}

protected theorem pure (a : α) : Keeps I (pure a : Eff σ ε α) := fun _ h => h

protected theorem get : Keeps I (Eff.get : Eff σ ε σ) := fun _ h => h

protected theorem stop (e : ε) : Keeps I (Eff.stop e : Eff σ ε α) := fun _ h => h

protected theorem lift (x : Except ε α) : Keeps I (Eff.lift x : Eff σ ε α) := fun _ h => h

protected theorem modify {f : σ → σ} (h : ∀ s, I s → I (f s)) :
    Keeps I (Eff.modify f : Eff σ ε Unit) := h

/-- From a state after which `m` leaves `I`. -/
theorem bind_of_run {m : Eff σ ε α} {f : α → Eff σ ε β} {s : σ} (hm : I (m.run s).2)
    (hf : ∀ a, Keeps I (f a)) : I ((m >>= f).run s).2 := by
  rw [run_bind]
  split
  · next a s' heq =>
      rw [heq] at hm
      exact hf a s' hm
  · next e s' heq =>
      rw [heq] at hm
      exact hm

protected theorem bind {m : Eff σ ε α} {f : α → Eff σ ε β} (hm : Keeps I m)
    (hf : ∀ a, Keeps I (f a)) : Keeps I (m >>= f) :=
  fun s hs => bind_of_run (hm s hs) hf

protected theorem ite {p : Prop} [Decidable p] {m n : Eff σ ε α} (hm : p → Keeps I m)
    (hn : ¬p → Keeps I n) : Keeps I (if p then m else n) := by
  split
  · next hp => exact hm hp
  · next hp => exact hn hp

/-- Working on a part of the state: it is enough that putting any part back preserves `I`. -/
protected theorem zoom {σ τ ε ε' α : Type} {I : τ → Prop} {g : τ → σ} {put : σ → τ → τ} {f : ε → ε'}
    {m : Eff σ ε α} (h : ∀ s t, I t → I (put s t)) : Keeps I (zoom g put f m) :=
  fun t ht => h _ t ht

/-- Reading the state first: the rest may be checked knowing what was read. -/
protected theorem get_bind {f : σ → Eff σ ε β} (hf : ∀ s, I s → I ((f s).run s).2) :
    Keeps I (Eff.get >>= f) := hf

end Keeps

/-! ## The ways a computation may stop -/

/-- Where `m` stops, it stops with an `e` that satisfies `P`. -/
def StopsOnly (P : ε → Prop) (m : Eff σ ε α) : Prop := ∀ s e, (m.run s).1 = .error e → P e

namespace StopsOnly

variable {P : ε → Prop}

protected theorem pure (a : α) : StopsOnly P (pure a : Eff σ ε α) := fun _ _ h => by cases h

protected theorem stop {e : ε} (h : P e) : StopsOnly P (Eff.stop e : Eff σ ε α) := by
  intro _ e' he
  cases he
  exact h

protected theorem lift {x : Except ε α} (h : ∀ e, x = .error e → P e) :
    StopsOnly P (Eff.lift x : Eff σ ε α) := fun _ e he => h e he

protected theorem modify (f : σ → σ) : StopsOnly P (Eff.modify f : Eff σ ε Unit) :=
  fun _ _ h => by cases h

protected theorem bind {m : Eff σ ε α} {f : α → Eff σ ε β} (hm : StopsOnly P m)
    (hf : ∀ a, StopsOnly P (f a)) : StopsOnly P (m >>= f) := by
  intro s e he
  rw [run_bind] at he
  split at he
  · next a s' _ => exact hf a s' e he
  · next e' s' heq =>
      cases he
      exact hm s _ (by rw [heq])

protected theorem get_bind {f : σ → Eff σ ε β} (hf : ∀ s, StopsOnly P (f s)) :
    StopsOnly P (Eff.get >>= f) := fun s => hf s s

protected theorem ite {p : Prop} [Decidable p] {m n : Eff σ ε α} (hm : StopsOnly P m)
    (hn : StopsOnly P n) : StopsOnly P (if p then m else n) := by
  split
  · exact hm
  · exact hn

end StopsOnly

end Eff

end ME2U
