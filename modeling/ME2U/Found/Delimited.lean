import Mathlib.Data.List.Basic
import Mathlib.Tactic.Common

/-!
# Text up to a delimiter

What is read of a text by a loop that stops at the first delimiter, and runs out of the text where
there is none.

* `upTo P s`: the elements of `s` before the first one that satisfies `P`, if there is one;
  `upTo_eq_ite` computes them.
* `upTo_append_of_exists`, `upTo_append_of_forall`: the delimiter is in the first part, or it is
  not.
* `upTo_append_eq_iff`: when what is read of `s` is the same whatever is behind it.
-/

namespace ME2U

variable {α : Type} (P : α → Prop) [DecidablePred P]

/-- The elements before the first delimiter. -/
def upTo : List α → Option (List α)
  | [] => none
  | x :: s => if P x then some [] else (upTo s).map (x :: ·)

variable {P}

/-- The delimiter is at the front -/
theorem upTo_cons_of_pos {x : α} (hx : P x) (s : List α) : upTo P (x :: s) = some [] := if_pos hx

/-- or further behind. -/
theorem upTo_cons_of_neg {x : α} (hx : ¬P x) (s : List α) :
    upTo P (x :: s) = (upTo P s).map (x :: ·) := if_neg hx

/-- What is read, where there is a delimiter. -/
theorem upTo_eq_ite (s : List α) :
    upTo P s = if ∃ x ∈ s, P x then some (s.takeWhile fun x => !decide (P x)) else none := by
  induction s with
  | nil => simp [upTo]
  | cons x s ih =>
      by_cases hx : P x
      · simp [upTo_cons_of_pos hx, hx]
      · rw [upTo_cons_of_neg hx, ih]
        by_cases hs : ∃ y ∈ s, P y
        · simp [hx, hs]
        · simp [hx, hs]

/-- There is something before a delimiter iff there is a delimiter. -/
theorem isSome_upTo_iff {s : List α} : (upTo P s).isSome ↔ ∃ x ∈ s, P x := by
  rw [upTo_eq_ite]
  split_ifs with h <;> simp [h]

/-- **What is read** is free of delimiters, and one is behind it. -/
theorem upTo_eq_some_iff {s w : List α} :
    upTo P s = some w ↔ (∀ x ∈ w, ¬P x) ∧ ∃ x q, P x ∧ s = w ++ x :: q := by
  induction s generalizing w with
  | nil => simp [upTo]
  | cons y s ih =>
      by_cases hy : P y
      · rw [upTo_cons_of_pos hy, Option.some.injEq]
        constructor
        · rintro rfl
          exact ⟨by simp, y, s, hy, rfl⟩
        · rintro ⟨hw, x, q, -, heq⟩
          cases w with
          | nil => rfl
          | cons z w =>
              obtain rfl : y = z := (List.cons.inj heq).1
              exact absurd hy (hw y List.mem_cons_self)
      · rw [upTo_cons_of_neg hy, Option.map_eq_some_iff]
        constructor
        · rintro ⟨v, hv, rfl⟩
          obtain ⟨hfree, x, q, hx, rfl⟩ := ih.mp hv
          exact ⟨List.forall_mem_cons.mpr ⟨hy, hfree⟩, x, q, hx, rfl⟩
        · rintro ⟨hw, x, q, hx, heq⟩
          cases w with
          | nil =>
              obtain rfl : y = x := (List.cons.inj heq).1
              exact absurd hx hy
          | cons z w =>
              obtain ⟨rfl, rfl⟩ := List.cons.inj heq
              exact ⟨w, ih.mpr ⟨(List.forall_mem_cons.mp hw).2, x, q, hx, rfl⟩, rfl⟩

/-- A delimiter in the first part ends the text there. -/
theorem upTo_append_of_exists {s : List α} (h : ∃ x ∈ s, P x) (q : List α) :
    upTo P (s ++ q) = upTo P s := by
  obtain ⟨w, hw⟩ := Option.isSome_iff_exists.mp (isSome_upTo_iff.mpr h)
  obtain ⟨hfree, x, r, hx, rfl⟩ := upTo_eq_some_iff.mp hw
  rw [hw, upTo_eq_some_iff]
  exact ⟨hfree, x, r ++ q, hx, by simp⟩

/-- Without a delimiter there, the text goes on in the second part. -/
theorem upTo_append_of_forall {s : List α} (h : ∀ x ∈ s, ¬P x) (q : List α) :
    upTo P (s ++ q) = (upTo P q).map (s ++ ·) := by
  induction s with
  | nil =>
      rw [List.nil_append]
      cases upTo P q <;> rfl
  | cons x s ih =>
      obtain ⟨hx, hs⟩ := List.forall_mem_cons.mp h
      rw [List.cons_append, upTo_cons_of_neg hx, ih hs, Option.map_map]
      rfl

/-- **What is behind**: of `s` with a delimiter behind it the same is read as of `s` with `q` behind
it, iff `s` has a delimiter of its own or `q` begins with one. -/
theorem upTo_append_eq_iff {s q q₀ : List α} {x₀ : α} (hx₀ : P x₀) :
    upTo P (s ++ q) = upTo P (s ++ x₀ :: q₀) ↔ (∃ x ∈ s, P x) ∨ ∃ x ∈ q.head?, P x := by
  by_cases hs : ∃ x ∈ s, P x
  · rw [upTo_append_of_exists hs, upTo_append_of_exists hs]
    exact ⟨fun _ => .inl hs, fun _ => rfl⟩
  have hfree : ∀ x ∈ s, ¬P x := fun x hx hp => hs ⟨x, hx, hp⟩
  rw [upTo_append_of_forall hfree, upTo_append_of_forall hfree, upTo_cons_of_pos hx₀]
  constructor
  · intro h
    obtain ⟨v, hv, hsv⟩ := Option.map_eq_some_iff.mp h
    obtain rfl : v = [] := List.append_cancel_left hsv
    obtain ⟨-, x, r, hx, rfl⟩ := upTo_eq_some_iff.mp hv
    exact .inr ⟨x, rfl, hx⟩
  · rintro (hs' | ⟨x, hx, hp⟩)
    · exact absurd hs' hs
    · cases q with
      | nil => cases hx
      | cons y q =>
          obtain rfl : y = x := Option.some.inj hx
          rw [upTo_cons_of_pos hp]

end ME2U
