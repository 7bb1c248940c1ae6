import Mathlib.Data.List.Infix
import Mathlib.Tactic.Common
import ME2U.Found.Text

/-!
# Terminated texts

A frame is a text followed by a terminator `t`. Two things are done with terminators: deleting
their occurrences, and looking for the first place where the text ends in one.

* `deleteAll t s` deletes the occurrences of `t` in `s` from left to right, without overlaps, the
  way `s.replace(t, "")` does in Python. It is one pass: what it leaves may contain `t` again.
  `deleteAll_append_self_iff` says when it undoes the adding of `t`.
* `EndsOnce t f` says that `t` occurs in `f` once, at the very end. `endsOnce_append_iff` is the
  overlap analysis: `b ++ t` ends once in `t` iff `t` does not occur in `b` and `b` does not end in
  a period of `t`, a proper beginning `w` of `t` with `t = w ++ v` and `t = v ++ y`.
-/

namespace ME2U

variable {α : Type}

/-! ## One occurrence, at the end -/

/-- `w` is a period of `t`: `t` shifted by `w` agrees with itself. -/
def IsPeriod (w t : List α) : Prop := w ≠ [] ∧ ∃ v y, t = w ++ v ∧ t = v ++ y

/-- `t` occurs in `f` exactly once, as its last elements. -/
def EndsOnce (t f : List α) : Prop := t <:+ f ∧ ∀ x y, f = x ++ t ++ y → y = []

/-- A beginning of `f` that ends in the terminator is all of `f`. -/
theorem EndsOnce.eq_of_isPrefix {t f p : List α} (h : EndsOnce t f) (hp : p <+: f)
    (ht : t <:+ p) : p = f := by
  obtain ⟨y, rfl⟩ := hp
  obtain ⟨x, rfl⟩ := ht
  have := h.2 x y rfl
  simp [this]

/-- Between the beginnings of `f`, only `f` itself ends in the terminator. -/
theorem EndsOnce.isSuffix_iff {t p r : List α} (h : EndsOnce t (p ++ r)) :
    t <:+ p ↔ r = [] := by
  constructor
  · intro ht
    simpa using h.eq_of_isPrefix ⟨r, rfl⟩ ht
  · rintro rfl
    simpa using h.1

/-- The condition, checked over the finitely many beginnings of `f`. -/
theorem endsOnce_iff_inits {t f : List α} :
    EndsOnce t f ↔ t <:+ f ∧ ∀ p ∈ f.inits, t <:+ p → p = f := by
  refine ⟨fun h => ⟨h.1, fun p hp ht => h.eq_of_isPrefix ((List.mem_inits _ _).mp hp) ht⟩, ?_⟩
  rintro ⟨ht, hall⟩
  refine ⟨ht, fun x y hf => ?_⟩
  have := hall (x ++ t) ((List.mem_inits _ _).mpr ⟨y, hf.symm⟩) ⟨x, rfl⟩
  rw [hf] at this
  simpa using this

instance [DecidableEq α] (t f : List α) : Decidable (EndsOnce t f) :=
  decidable_of_iff _ endsOnce_iff_inits.symm

/-- **Overlaps with a final terminator**: `b ++ t` ends once in `t` iff `t` does not occur in `b`
and no period of `t` ends `b`. -/
theorem endsOnce_append_iff {b t : List α} (hne : t ≠ []) :
    EndsOnce t (b ++ t) ↔ ¬t <:+: b ∧ ∀ w, IsPeriod w t → ¬w <:+ b := by
  constructor
  · rintro ⟨-, h⟩
    constructor
    · rintro ⟨x, y, rfl⟩
      have := h x (y ++ t) (by simp)
      exact hne (List.append_eq_nil_iff.mp this).2
    · rintro w ⟨hw, v, y, hv, hy⟩ ⟨x, rfl⟩
      have hsplit : x ++ w ++ t = x ++ t ++ y := calc
        x ++ w ++ t = x ++ w ++ (v ++ y) := congrArg (x ++ w ++ ·) hy
        _ = x ++ (w ++ v) ++ y := by simp
        _ = x ++ t ++ y := by rw [← hv]
      have hlen : w.length = y.length := by
        have := congrArg List.length (hv.symm.trans hy)
        simp only [List.length_append] at this
        omega
      rw [h x y hsplit] at hlen
      exact hw (List.length_eq_zero_iff.mp hlen)
  · rintro ⟨hin, hper⟩
    refine ⟨List.suffix_append b t, fun x y h => ?_⟩
    by_contra hy
    rcases List.append_eq_append_iff.mp h with ⟨v, hxt, ht⟩ | ⟨v, rfl, -⟩
    · -- the occurrence runs over the end of `b`
      rcases List.append_eq_append_iff.mp hxt with ⟨w, rfl, hw⟩ | ⟨w, rfl, hv⟩
      · refine hper w ⟨?_, v, y, hw, ht⟩ (List.suffix_append x w)
        rintro rfl
        have hlen := congrArg List.length ht
        rw [hw] at hlen
        simp only [List.nil_append, List.length_append] at hlen
        exact hy (List.length_eq_zero_iff.mp (by omega))
      · have hlen := congrArg List.length ht
        rw [hv] at hlen
        simp only [List.length_append] at hlen
        exact hy (List.length_eq_zero_iff.mp (by omega))
    · -- the occurrence lies inside `b`
      exact hin ⟨x, v, rfl⟩

/-- A text without the first element of the terminator ends in it once when it is appended. -/
theorem endsOnce_append_of_notMem {c : α} {u b : List α} (hc : c ∉ b) :
    EndsOnce (c :: u) (b ++ c :: u) := by
  rw [endsOnce_append_iff (List.cons_ne_nil c u)]
  refine ⟨fun h => hc (h.subset List.mem_cons_self), ?_⟩
  rintro w ⟨hw, v, y, hv, -⟩ hsuf
  obtain ⟨a, w, rfl⟩ := List.exists_cons_of_ne_nil hw
  have : c = a := (List.cons.inj hv).1
  exact hc (this ▸ hsuf.subset List.mem_cons_self)

/-- What ends behind an element that `t` does not have. -/
theorem isSuffix_append_cons_iff {t a b : List α} {c : α} (hc : c ∉ t) :
    t <:+ a ++ c :: b ↔ t <:+ b := by
  refine ⟨?_, fun h => h.trans ⟨a ++ [c], by simp⟩⟩
  rintro ⟨x, h⟩
  rcases List.append_eq_append_iff.mp h with ⟨v, -, rfl⟩ | ⟨v, -, hv⟩
  · exact absurd (List.mem_append_right v List.mem_cons_self) hc
  · cases v with
    | nil =>
        obtain rfl : c :: b = t := hv
        exact absurd List.mem_cons_self hc
    | cons d v => exact ⟨v, (List.cons.inj hv).2.symm⟩

/-- Around an element that `t` does not have, `t` occurs on one side or on the other. -/
theorem isInfix_append_cons_iff {t a b : List α} {c : α} (hc : c ∉ t) :
    t <:+: a ++ c :: b ↔ t <:+: a ∨ t <:+: b := by
  constructor
  · rintro ⟨x, y, h⟩
    rcases List.append_eq_append_iff.mp h with ⟨z, rfl, -⟩ | ⟨z, hz, hzy⟩
    · exact .inl ⟨x, z, rfl⟩
    · cases z with
      | nil => exact .inl ⟨x, [], by simpa using hz⟩
      | cons d z =>
          obtain ⟨rfl, rfl⟩ := List.cons.inj hzy
          have hsuf := (isSuffix_append_cons_iff hc).mp ⟨x, hz⟩
          exact .inr (hsuf.isInfix.trans ⟨[], y, by simp⟩)
  · rintro (⟨x, y, rfl⟩ | ⟨x, y, rfl⟩)
    · exact ⟨x, y ++ c :: b, by simp⟩
    · exact ⟨a ++ c :: x, y, by simp⟩

/-- An ASCII terminator stands in the encoding where it stands in the text. -/
theorem endsOnce_encode_iff {t f : Str} (ht : ∀ c ∈ t, IsAscii c) (hne : t ≠ []) :
    EndsOnce (encode t) (encode f) ↔ EndsOnce t f := by
  constructor
  · rintro ⟨⟨x, hx⟩, h⟩
    obtain ⟨s₁, s₂, rfl, rfl, hs₂⟩ :=
      encode_eq_append_ascii_append (y := []) ht hne (by simpa using hx.symm)
    obtain rfl : s₂ = [] := encode_eq_nil.mp hs₂.symm
    refine ⟨⟨s₁, by simp⟩, fun x y hxy => ?_⟩
    exact encode_eq_nil.mp (h (encode x) (encode y) (by rw [hxy]; simp))
  · rintro ⟨⟨x, rfl⟩, h⟩
    refine ⟨⟨encode x, by simp⟩, fun a b hab => ?_⟩
    obtain ⟨s₁, s₂, hs, -, rfl⟩ := encode_eq_append_ascii_append ht hne hab
    rw [h s₁ s₂ hs]
    rfl

/-! ## Deleting every occurrence -/

variable [DecidableEq α]

/-- The deletion of `t` in the middle of an occurrence that has `k` elements left. -/
def deleteFrom (t : List α) : ℕ → List α → List α
  | _, [] => []
  | k + 1, _ :: s => deleteFrom t k s
  | 0, a :: s => if t <+: a :: s then deleteFrom t (t.length - 1) s else a :: deleteFrom t 0 s

/-- Delete the occurrences of `t` in `s`, from left to right and without overlaps. -/
def deleteAll (t s : List α) : List α := deleteFrom t 0 s

/-- Deletion goes on behind what was matched. -/
theorem deleteFrom_eq_drop (t : List α) (k : ℕ) (s : List α) :
    deleteFrom t k s = deleteAll t (s.drop k) := by
  induction s generalizing k with
  | nil => cases k <;> rfl
  | cons a s ih =>
      cases k with
      | zero => rfl
      | succ k => exact ih k

@[simp] theorem deleteAll_nil (t : List α) : deleteAll t [] = [] := rfl

/-- No occurrence starts here: the element is kept. -/
theorem deleteAll_cons_of_not_isPrefix {t : List α} {a : α} {s : List α} (h : ¬t <+: a :: s) :
    deleteAll t (a :: s) = a :: deleteAll t s := by
  rw [deleteAll, deleteFrom, if_neg h]
  rfl

/-- An occurrence at the front goes as a whole. -/
theorem deleteAll_self_append {t : List α} (ht : t ≠ []) (s : List α) :
    deleteAll t (t ++ s) = deleteAll t s := by
  obtain ⟨a, u, rfl⟩ := List.exists_cons_of_ne_nil ht
  have hpre : a :: u <+: a :: (u ++ s) := ⟨s, rfl⟩
  rw [List.cons_append, deleteAll, deleteFrom, if_pos hpre, deleteFrom_eq_drop]
  simp

/-- Elements other than the first one of `t` stop no deletion and are never deleted. -/
theorem deleteAll_append_of_notMem {c : α} {u x : List α} (hx : c ∉ x) (s : List α) :
    deleteAll (c :: u) (x ++ s) = x ++ deleteAll (c :: u) s := by
  induction x with
  | nil => rfl
  | cons a x ih =>
      have hne : ¬c :: u <+: a :: (x ++ s) := by
        rintro ⟨r, hr⟩
        exact hx ((List.cons.inj hr).1 ▸ List.mem_cons_self)
      rw [List.cons_append, deleteAll_cons_of_not_isPrefix hne,
        ih fun h => hx (List.mem_cons_of_mem a h)]
      rfl

/-- Text without the first byte of the terminator is left as it is. -/
theorem deleteAll_of_notMem {c : α} {u x : List α} (hx : c ∉ x) : deleteAll (c :: u) x = x := by
  simpa using deleteAll_append_of_notMem (u := u) hx []

/-- A text without an occurrence of `t` is left as it is. -/
theorem deleteAll_of_not_isInfix {t s : List α} (h : ¬t <:+: s) : deleteAll t s = s := by
  induction s with
  | nil => rfl
  | cons a s ih =>
      have hpre : ¬t <+: a :: s := fun hp => h hp.isInfix
      rw [deleteAll_cons_of_not_isPrefix hpre,
        ih fun hs => h (hs.trans (List.suffix_cons a s).isInfix)]

/-- A text shorter than `t` is left as it is. -/
theorem deleteAll_of_length_lt {t s : List α} (h : s.length < t.length) : deleteAll t s = s :=
  deleteAll_of_not_isInfix fun hi => absurd hi.length_le (Nat.not_le.mpr h)

/-- A deletion leaves no more than there was. -/
theorem length_deleteAll_le (t s : List α) : (deleteAll t s).length ≤ s.length := by
  suffices hgen : ∀ (s : List α) (k : ℕ), (deleteFrom t k s).length ≤ s.length from hgen s 0
  intro s
  induction s with
  | nil => intro k; cases k <;> exact Nat.le_refl 0
  | cons a s ih =>
      intro k
      cases k with
      | succ k => exact (ih k).trans (Nat.le_succ s.length)
      | zero =>
          rw [deleteFrom]
          split
          · exact (ih _).trans (Nat.le_succ s.length)
          · exact Nat.succ_le_succ (ih 0)

/-- **The first occurrence** of `t` in a text that has one. -/
theorem exists_first_of_isInfix {t s : List α} (ht : t ≠ []) (h : t <:+: s) :
    ∃ x y, s = x ++ t ++ y ∧ EndsOnce t (x ++ t) := by
  induction s with
  | nil => exact absurd (List.infix_nil.mp h) ht
  | cons a s ih =>
      by_cases hpre : t <+: a :: s
      · obtain ⟨y, hy⟩ := hpre
        refine ⟨[], y, by simpa using hy.symm, List.suffix_refl t, fun u v huv => ?_⟩
        have hlen := congrArg List.length huv
        simp only [List.nil_append, List.length_append] at hlen
        exact List.length_eq_zero_iff.mp (by omega)
      · obtain ⟨x, y, rfl, honce⟩ := ih ((List.infix_cons_iff.mp h).resolve_left hpre)
        refine ⟨a :: x, y, rfl, List.suffix_append (a :: x) t, fun u v huv => ?_⟩
        cases u with
        | nil =>
            have htv : t ++ v = a :: x ++ t := huv.symm
            exact absurd ⟨v ++ y, by rw [← List.append_assoc, htv]; rfl⟩ hpre
        | cons b u => exact honce.2 u v (List.cons.inj huv).2

/-- **One deletion**: what is before the first occurrence is kept, and the rest is looked
through. -/
theorem deleteAll_first {t x : List α} (ht : t ≠ []) (h : EndsOnce t (x ++ t)) (y : List α) :
    deleteAll t (x ++ t ++ y) = x ++ deleteAll t y := by
  induction x with
  | nil => exact deleteAll_self_append ht y
  | cons a x ih =>
      have hpre : ¬t <+: a :: (x ++ t ++ y) := by
        intro hp
        have hshort : t <+: a :: x ++ t :=
          List.prefix_of_prefix_length_le hp ⟨y, by simp⟩ (by simp; omega)
        have hall := h.eq_of_isPrefix hshort (List.suffix_refl t)
        have hlen := congrArg List.length hall
        simp only [List.length_append, List.length_cons] at hlen
        omega
      have hrest : EndsOnce t (x ++ t) :=
        ⟨List.suffix_append x t, fun u v huv => h.2 (a :: u) v (by simp [huv])⟩
      rw [List.cons_append, List.cons_append, deleteAll_cons_of_not_isPrefix hpre, ih hrest]
      rfl

/-- Where `t` occurs, at least its length is lost. -/
theorem length_deleteAll_of_isInfix {t s : List α} (ht : t ≠ []) (h : t <:+: s) :
    (deleteAll t s).length + t.length ≤ s.length := by
  obtain ⟨x, y, rfl, honce⟩ := exists_first_of_isInfix ht h
  have hle := length_deleteAll_le t y
  rw [deleteAll_first ht honce]
  simp only [List.length_append]
  omega

/-- **Adding and deleting**: if the overlaps of `t` with itself are the same on both sides, then
deleting the occurrences of `t` undoes adding one iff there was none. -/
theorem deleteAll_append_self_iff {t : List α} (ht : t ≠ [])
    (hborder : ∀ w v y, v ≠ [] → t = w ++ v → t = v ++ y → y = w) (s : List α) :
    deleteAll t (s ++ t) = s ↔ ¬t <:+: s := by
  constructor
  · intro heq hin
    obtain ⟨x, y, rfl, honce⟩ := exists_first_of_isInfix ht hin
    have hlost := length_deleteAll_of_isInfix ht (List.suffix_append y t).isInfix
    rw [List.append_assoc, deleteAll_first ht honce] at heq
    have hlen := congrArg List.length heq
    have hpos := List.length_pos_iff.mpr ht
    simp only [List.length_append] at hlen hlost
    omega
  · intro hno
    obtain ⟨x, y, hxy, honce⟩ := exists_first_of_isInfix ht (List.suffix_append s t).isInfix
    -- the first occurrence begins in `s`, and what is left of `s` is overlapped by it
    have hlen := congrArg List.length hxy
    simp only [List.length_append] at hlen
    obtain ⟨w, rfl⟩ : x <+: s :=
      List.prefix_of_prefix_length_le ⟨t ++ y, by simp [hxy]⟩ (List.prefix_append s t) (by omega)
    have hover : w ++ t = t ++ y := by simpa using hxy
    have hshort : w.length < t.length := by
      by_contra hle
      have hpre : t <+: w :=
        List.prefix_of_prefix_length_le ⟨y, hover.symm⟩ (List.prefix_append w t) (by omega)
      exact hno (hpre.isInfix.trans (List.suffix_append x w).isInfix)
    obtain ⟨v, rfl⟩ : w <+: t :=
      List.prefix_of_prefix_length_le (List.prefix_append w t) ⟨y, hover.symm⟩ hshort.le
    have hv : v ≠ [] := by
      rintro rfl
      simp at hshort
    have htail : w ++ v = v ++ y := by simpa using hover
    obtain rfl := hborder w v y hv rfl htail
    rw [hxy, deleteAll_first ht honce, deleteAll_of_length_lt hshort]

/-- What is not in `t` is not deleted. -/
theorem mem_deleteAll {t s : List α} {c : α} (ht : t ≠ []) (hc : c ∉ t) (hs : c ∈ s) :
    c ∈ deleteAll t s := by
  suffices hgen : ∀ (s : List α) (k : ℕ), c ∈ s.drop k → c ∈ deleteFrom t k s from hgen s 0 hs
  intro s
  induction s with
  | nil =>
      intro k hk
      simp at hk
  | cons a s ih =>
      intro k hk
      cases k with
      | succ k => exact ih k hk
      | zero =>
          rw [deleteFrom]
          split
          · next hpre =>
              -- the occurrence does not hold it, so that it comes behind
              obtain ⟨r, hr⟩ := hpre
              apply ih
              obtain ⟨b, u, rfl⟩ := List.exists_cons_of_ne_nil ht
              rw [List.drop_zero, ← hr, List.mem_append] at hk
              have hdrop : s.drop ((b :: u).length - 1) = r := by
                rw [← (List.cons.inj hr).2, List.length_cons, Nat.add_sub_cancel]
                exact List.drop_left
              rw [hdrop]
              exact hk.resolve_left hc
          · rcases List.mem_cons.mp hk with rfl | hk
            · exact List.mem_cons_self
            · exact List.mem_cons_of_mem _ (ih 0 hk)

end ME2U
