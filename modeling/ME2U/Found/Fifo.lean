import Mathlib.Data.List.Basic

/-!
# Pipes

A pipe has an end that is written to and an end that is read from, and hands out what was written in
the order in which it was. A write to the wrong end, or a read from it, moves nothing.

* `Fifo`: what was written, what was taken and by whom, and what is inside; together they agree.
* `Fifo.write`, `Fifo.read`: writing and reading at an end.
* `Fifo.Carries`: what one party writes is taken by another party only, once and in order.
-/

namespace ME2U

/-- An end of a pipe. -/
inductive PipeEnd
  | reading
  | writing
  deriving DecidableEq

/-- A pipe between parties. Items keep the party that wrote them. -/
@[ext] structure Fifo (π α : Type) where
  /-- What was written. -/
  put : List (π × α)
  /-- What was taken, each with the party that took it. -/
  taken : List (π × (π × α))
  inside : List (π × α)
  /-- Nothing is lost, nothing comes twice, and the order is kept. -/
  conserved : taken.map Prod.snd ++ inside = put

namespace Fifo

variable {π α : Type}

/-- A new pipe. -/
def empty : Fifo π α := ⟨[], [], [], rfl⟩

/-- A write by `p` at an end. -/
def write (p : π) (xs : List α) (q : Fifo π α) : PipeEnd → Fifo π α
  | .writing =>
      ⟨q.put ++ xs.map (p, ·), q.taken, q.inside ++ xs.map (p, ·), by
        rw [← List.append_assoc, q.conserved]⟩
  | .reading => q

/-- A read of at most `n` items by `p` at an end. -/
def read (p : π) (n : ℕ) (q : Fifo π α) : PipeEnd → Fifo π α
  | .reading =>
      ⟨q.put, q.taken ++ (q.inside.take n).map (p, ·), q.inside.drop n, by
        rw [← q.conserved, List.map_append, List.map_map, List.append_assoc]
        congr 1
        exact (congrArg (· ++ _) (List.map_id _)).trans (List.take_append_drop n q.inside)⟩
  | .writing => q

@[simp] theorem write_reading (p : π) (xs : List α) (q : Fifo π α) : q.write p xs .reading = q :=
  rfl

@[simp] theorem put_write (p : π) (xs : List α) (q : Fifo π α) :
    (q.write p xs .writing).put = q.put ++ xs.map (p, ·) := rfl

@[simp] theorem taken_write (p : π) (xs : List α) (q : Fifo π α) (e : PipeEnd) :
    (q.write p xs e).taken = q.taken := by
  cases e <;> rfl

@[simp] theorem put_read (p : π) (n : ℕ) (q : Fifo π α) (e : PipeEnd) :
    (q.read p n e).put = q.put := by
  cases e <;> rfl

@[simp] theorem taken_read (p : π) (n : ℕ) (q : Fifo π α) :
    (q.read p n .reading).taken = q.taken ++ (q.inside.take n).map (p, ·) := rfl

@[simp] theorem inside_read (p : π) (n : ℕ) (q : Fifo π α) :
    (q.read p n .reading).inside = q.inside.drop n := rfl

/-- Everything is taken by `p`. -/
theorem forall_taken_read {p : π} (n : ℕ) {q : Fifo π α}
    (h : ∀ x ∈ q.taken, x.1 = p) (e : PipeEnd) :
    ∀ x ∈ (q.read p n e).taken, x.1 = p := by
  cases e with
  | writing => exact h
  | reading =>
      rw [taken_read, List.forall_mem_append]
      refine ⟨h, ?_⟩
      intro x hx
      obtain ⟨y, -, rfl⟩ := List.mem_map.mp hx
      rfl

section Carries

variable [DecidableEq π]

/-- **A lossless direction**: the items of `p` that were taken, and those that are inside, are `xs`,
once and in order, and `p'` took them all. -/
def Carries (q : Fifo π α) (p p' : π) (xs : List α) : Prop :=
  ((q.taken.map Prod.snd ++ q.inside).filter fun x => x.1 = p).map Prod.snd = xs ∧
    ∀ x ∈ q.taken, x.2.1 = p → x.1 = p'

/-- A pipe in which one party has written, and another has read. -/
theorem carries_of_put {q : Fifo π α} {p p' : π} {xs : List α} (hput : q.put = xs.map (p, ·))
    (htaken : ∀ x ∈ q.taken, x.1 = p') : q.Carries p p' xs := by
  refine ⟨?_, fun x hx _ => htaken x hx⟩
  rw [q.conserved, hput, List.filter_map, List.map_map]
  have hall : xs.filter ((fun x : π × α => decide (x.1 = p)) ∘ (p, ·)) = xs := by
    simp [Function.comp_def]
  rw [hall]
  exact List.map_id xs

/-- What a party that has not written would have to have written. -/
theorem carries_iff_of_put {q : Fifo π α} {p p' p₁ : π} (hne : p₁ ≠ p) {xs ys : List α}
    (hput : q.put = xs.map (p, ·)) : q.Carries p₁ p' ys ↔ ys = [] := by
  have hnone : ∀ x ∈ q.taken.map Prod.snd ++ q.inside, x.1 ≠ p₁ := by
    rw [q.conserved, hput]
    intro x hx
    obtain ⟨y, -, rfl⟩ := List.mem_map.mp hx
    exact hne.symm
  have hfilter : (q.taken.map Prod.snd ++ q.inside).filter (fun x => decide (x.1 = p₁)) = [] := by
    apply List.filter_eq_nil_iff.mpr
    intro x hx
    simpa using hnone x hx
  unfold Carries
  rw [hfilter]
  constructor
  · rintro ⟨h, -⟩
    exact h.symm
  · rintro rfl
    refine ⟨rfl, fun x hx heq => ?_⟩
    exact absurd heq (hnone x.2 (List.mem_append_left _ (List.mem_map_of_mem hx)))

end Carries

end Fifo

end ME2U
