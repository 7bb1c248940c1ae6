import Mathlib.Data.List.Infix
import Mathlib.Tactic.Common

/-!
# Choosing by an abbreviation

A table of words is searched for the first word that begins with `w`. So `w` need not be one of the
words: any beginning of one will do, and the order of the table decides between several.

* `pick word ks w`: the first key of `ks` whose word begins with `w`.
* `pick_exact_iff`: `w` picks exactly the key whose word it is, iff it is one of the words or begins
  none.
* `pick_append_eq_iff`: when more is behind it, `w` picks the same, iff it picks nothing or what it
  picks begins with all of it.
-/

namespace ME2U

variable {α κ : Type} [DecidableEq α] {word : κ → List α} {ks : List κ}

/-- The first key whose word begins with `w`. -/
def pick (word : κ → List α) (ks : List κ) (w : List α) : Option κ :=
  ks.find? fun k => decide (w <+: word k)

/-- No command is picked where none begins with the word. -/
theorem pick_eq_none_iff {w : List α} : pick word ks w = none ↔ ∀ k ∈ ks, ¬w <+: word k := by
  unfold pick
  simp

/-- One that is picked begins with it. -/
theorem pick_eq_some {w : List α} {k : κ} (h : pick word ks w = some k) : k ∈ ks ∧ w <+: word k :=
  ⟨List.mem_of_find?_eq_some h, by simpa using List.find?_some h⟩

/-- A word of the table picks its own key where no word begins another. -/
theorem pick_word (happart : ∀ k ∈ ks, ∀ k' ∈ ks, word k <+: word k' → k = k')
    {k : κ} (hk : k ∈ ks) :
    pick word ks (word k) = some k := by
  cases hpick : pick word ks (word k) with
  | none => exact absurd (List.prefix_refl _) (pick_eq_none_iff.mp hpick k hk)
  | some k' =>
      obtain ⟨hk', hpre⟩ := pick_eq_some hpick
      rw [happart k hk k' hk' hpre]

/-- **Exact choices**: where no word of the table begins another, `w` picks exactly the key whose
word it is, iff it is one of the words or begins none of them. -/
theorem pick_exact_iff (happart : ∀ k ∈ ks, ∀ k' ∈ ks, word k <+: word k' → k = k') {w : List α} :
    (∀ k ∈ ks, pick word ks w = some k ↔ w = word k) ↔
      ∀ k ∈ ks, w <+: word k → ∃ k' ∈ ks, w = word k' := by
  constructor
  · intro h k hk hpre
    cases hpick : pick word ks w with
    | none => exact absurd hpre (pick_eq_none_iff.mp hpick k hk)
    | some k' =>
        have hk' := (pick_eq_some hpick).1
        exact ⟨k', hk', (h k' hk').mp hpick⟩
  · intro h k hk
    constructor
    · intro hpick
      obtain ⟨k', hk', rfl⟩ := h k hk (pick_eq_some hpick).2
      rw [pick_word happart hk'] at hpick
      rw [Option.some.inj hpick]
    · rintro rfl
      exact pick_word happart hk

/-- **Longer words**: with more behind it `w` picks what it picks alone, iff that, if there is any,
begins with all of it. -/
theorem pick_append_eq_iff {w v : List α} :
    pick word ks (w ++ v) = pick word ks w ↔ ∀ k ∈ pick word ks w, w ++ v <+: word k := by
  constructor
  · intro h k hk
    rw [Option.mem_def] at hk
    rw [hk] at h
    exact (pick_eq_some h).2
  · intro h
    cases hpick : pick word ks w with
    | none =>
        rw [pick_eq_none_iff] at hpick ⊢
        intro k hk hpre
        exact hpick k hk ((List.prefix_append w v).trans hpre)
    | some k =>
        have hlong := h k hpick
        unfold pick at hpick ⊢
        rw [List.find?_eq_some_iff_append] at hpick ⊢
        obtain ⟨-, before, after, hks, hbefore⟩ := hpick
        refine ⟨decide_eq_true hlong, before, after, hks, ?_⟩
        intro a ha
        have hno : ¬w <+: word a := by simpa using hbefore a ha
        have hno' : ¬w ++ v <+: word a := fun hpre => hno ((List.prefix_append w v).trans hpre)
        simpa using hno'

end ME2U
