import Mathlib.Data.List.Nodup

/-!
# Doubly linked lists in memory

A memory of nodes that refer to a next and a previous one. `Linked` says that the nodes from an
address on are those of a list, each with its predecessor, and that the last of them refers to none.

* `Listed`, `Linked.listed`: the same for the links to the next node alone.
* `Listed.unique`, `Listed.nodup`: the nodes are determined by the address, and none comes twice.
* `Linked.at`, `Linked.next_iff_prev`: what a node refers to, and that the two links are inverse.
* `Linked.congr`, `Linked.concat`: updates that leave the links alone, and a node linked in at the
  end.
* `scan_eq`: a loop along the list finds the first node that a test is true of.
-/

namespace ME2U

variable {α ν : Type} (next prev : ν → Option α)

/-- The nodes from an address on, with the one before it. -/
def Linked (m : α → Option ν) : Option α → Option α → List α → Prop
  | _, p, [] => p = none
  | b, p, a :: as => p = some a ∧ ∃ n, m a = some n ∧ prev n = b ∧ Linked m (some a) (next n) as

/-- The nodes from an address on, whatever they have before them. -/
def Listed (m : α → Option ν) : Option α → List α → Prop
  | p, [] => p = none
  | p, a :: as => p = some a ∧ ∃ n, m a = some n ∧ Listed m (next n) as

/-- A loop from an address on, for the first node that a test is true of; `none` where it does not
return: at an address without a node, where the test does not return, or when the steps run out. -/
def scan (m : α → Option ν) (test : ν → Option Bool) : ℕ → Option α → Option (Option α)
  | _, none => some none
  | 0, some _ => none
  | fuel + 1, some a => do
      let n ← m a
      let found ← test n
      if found then some (some a) else scan m test fuel (next n)

/-! ## Links in one direction -/

section Listed

variable {next} {m : α → Option ν} {p : Option α} {as : List α}

/-- The list is determined by the address of its first node. -/
theorem Listed.unique {as' : List α} (h : Listed next m p as) (h' : Listed next m p as') :
    as = as' := by
  induction as generalizing p as' with
  | nil =>
      obtain rfl : p = none := h
      cases as' with
      | nil => rfl
      | cons a' as' => exact absurd h'.1 (by simp)
  | cons a as ih =>
      obtain ⟨rfl, n, hn, hrest⟩ := h
      cases as' with
      | nil => exact absurd h' (by simp [Listed])
      | cons a' as' =>
          obtain ⟨heq, n', hn', hrest'⟩ := h'
          obtain rfl := Option.some.inj heq
          obtain rfl := Option.some.inj (hn.symm.trans hn')
          rw [ih hrest hrest']

/-- The rest of a list is a list. -/
theorem Listed.of_append {as₁ as₂ : List α} (h : Listed next m p (as₁ ++ as₂)) :
    ∃ p', Listed next m p' as₂ := by
  induction as₁ generalizing p with
  | nil => exact ⟨p, h⟩
  | cons a as₁ ih =>
      obtain ⟨-, n, -, hrest⟩ := h
      exact ih hrest

/-- No node comes twice: the list would go on from there for ever. -/
theorem Listed.nodup (h : Listed next m p as) : as.Nodup := by
  induction as generalizing p with
  | nil => exact List.nodup_nil
  | cons a as ih =>
      have hrest := h
      obtain ⟨rfl, n, -, hrest⟩ := hrest
      refine List.nodup_cons.mpr ⟨fun hmem => ?_, ih hrest⟩
      obtain ⟨l₁, l₂, rfl⟩ := List.append_of_mem hmem
      obtain ⟨p', hagain⟩ := hrest.of_append
      obtain rfl : p' = some a := hagain.1
      have heq := congrArg List.length (hagain.unique h)
      simp only [List.length_cons, List.length_append] at heq
      omega

end Listed

/-! ## Links in both directions -/

section Linked

variable {next prev} {m m' : α → Option ν} {b p : Option α} {as : List α}

/-- The first element is what the pointer points to. -/
theorem Linked.head (h : Linked next prev m b p as) : p = as.head? := by
  cases as with
  | nil => exact h
  | cons a as => exact h.1

/-- Followed forwards alone, it is a list. -/
theorem Linked.listed (h : Linked next prev m b p as) : Listed next m p as := by
  induction as generalizing b p with
  | nil => exact h
  | cons a as ih =>
      obtain ⟨hp, n, hn, -, hrest⟩ := h
      exact ⟨hp, n, hn, ih hrest⟩

/-- **No node comes twice**: the list would go on from there for ever. -/
theorem Linked.nodup (h : Linked next prev m b p as) : as.Nodup := h.listed.nodup

/-- **The links of a node**: it refers to the nodes at the indices behind and in front of its
own. -/
theorem Linked.at (h : Linked next prev m b p as) {i : ℕ} {a : α} (ha : as[i]? = some a) :
    ∃ n, m a = some n ∧ next n = as[i + 1]? ∧ prev n = if i = 0 then b else as[i - 1]? := by
  induction as generalizing b p i with
  | nil => cases ha
  | cons a' as ih =>
      obtain ⟨-, n, hn, hprev, hrest⟩ := h
      cases i with
      | zero =>
          obtain rfl : a' = a := Option.some.inj ha
          refine ⟨n, hn, ?_, hprev⟩
          rw [hrest.head, List.head?_eq_getElem?]
          rfl
      | succ i =>
          obtain ⟨n', hn', hnext', hprev'⟩ := ih hrest ha
          refine ⟨n', hn', hnext', hprev'.trans ?_⟩
          cases i with
          | zero => rfl
          | succ i => rfl

/-- **The two links are inverse** along the list. -/
theorem Linked.next_iff_prev (h : Linked next prev m none p as) {a a' : α} (ha : a ∈ as)
    (ha' : a' ∈ as) {n n' : ν} (hn : m a = some n) (hn' : m a' = some n') :
    next n = some a' ↔ prev n' = some a := by
  obtain ⟨i, hi⟩ := List.mem_iff_getElem?.mp ha
  obtain ⟨j, hj⟩ := List.mem_iff_getElem?.mp ha'
  obtain ⟨n₁, hn₁, hnext, -⟩ := h.at hi
  obtain rfl := Option.some.inj (hn.symm.trans hn₁)
  obtain ⟨n₂, hn₂, -, hprev⟩ := h.at hj
  obtain rfl := Option.some.inj (hn'.symm.trans hn₂)
  obtain ⟨hi_lt, -⟩ := List.getElem?_eq_some_iff.mp hi
  obtain ⟨hj_lt, -⟩ := List.getElem?_eq_some_iff.mp hj
  rw [hnext, hprev]
  constructor
  · intro hsucc
    obtain rfl : j = i + 1 := (List.getElem?_inj hj_lt h.nodup).mp (hj.trans hsucc.symm)
    rw [if_neg (Nat.succ_ne_zero i), Nat.add_sub_cancel]
    exact hi
  · intro hpred
    cases j with
    | zero => cases hpred
    | succ j =>
        rw [if_neg (Nat.succ_ne_zero j), Nat.add_sub_cancel] at hpred
        obtain rfl : i = j := (List.getElem?_inj hi_lt h.nodup).mp (hi.trans hpred.symm)
        exact hj

/-- Updates that leave the links of the nodes alone. -/
theorem Linked.congr (h : Linked next prev m b p as)
    (heq : ∀ a ∈ as, ∀ n, m a = some n → ∃ n', m' a = some n' ∧
      next n' = next n ∧ prev n' = prev n) :
    Linked next prev m' b p as := by
  induction as generalizing b p with
  | nil => exact h
  | cons a as ih =>
      obtain ⟨rfl, n, hn, hprev, hrest⟩ := h
      obtain ⟨n', hn', hnext', hprev'⟩ := heq a (List.mem_cons_self ..) n hn
      refine ⟨rfl, n', hn', hprev'.trans hprev, ?_⟩
      rw [hnext']
      exact ih hrest fun a' ha' => heq a' (List.mem_cons_of_mem a ha')

/-- **A node linked in at the end.** -/
theorem Linked.concat {last x : α} (h : Linked next prev m b p (as ++ [last]))
    (hkeep : ∀ a ∈ as, m' a = m a)
    (hlast : ∀ n, m last = some n → ∃ n', m' last = some n' ∧ next n' = some x ∧ prev n' = prev n)
    {n : ν} (hx : m' x = some n) (hnext : next n = none) (hprev : prev n = some last) :
    Linked next prev m' b p (as ++ [last] ++ [x]) := by
  induction as generalizing b p with
  | nil =>
      obtain ⟨rfl, n₁, hn₁, hprev₁, -⟩ := h
      obtain ⟨n', hn', hnext', hprev'⟩ := hlast n₁ hn₁
      exact ⟨rfl, n', hn', hprev'.trans hprev₁, hnext', n, hx, hprev, hnext⟩
  | cons a as ih =>
      obtain ⟨rfl, n₁, hn₁, hprev₁, hrest⟩ := h
      refine ⟨rfl, n₁, ?_, hprev₁, ?_⟩
      · rw [hkeep a (List.mem_cons_self ..), hn₁]
      · exact ih hrest fun a' ha' => hkeep a' (List.mem_cons_of_mem a ha')

/-- **A loop along a list** finds the first node that the test is true of, in at most as many steps
as there are nodes. -/
theorem scan_eq (h : Linked next prev m b p as) {test : ν → Option Bool} {t : α → Bool}
    (htest : ∀ a ∈ as, ∀ n, m a = some n → test n = some (t a)) {fuel : ℕ}
    (hfuel : as.length ≤ fuel) :
    scan next m test fuel p = some (as.find? t) := by
  induction as generalizing b p fuel with
  | nil =>
      obtain rfl : p = none := h
      cases fuel <;> rfl
  | cons a as ih =>
      obtain ⟨rfl, n, hn, -, hrest⟩ := h
      cases fuel with
      | zero => exact absurd hfuel (Nat.not_succ_le_zero _)
      | succ fuel =>
          have hrec := ih hrest (fun a' ha' => htest a' (List.mem_cons_of_mem a ha'))
            (Nat.le_of_succ_le_succ hfuel)
          have hstep : scan next m test (fuel + 1) (some a) = (m a).bind fun n =>
              (test n).bind fun found =>
                if found then some (some a) else scan next m test fuel (next n) := rfl
          rw [hstep, hn, Option.bind_some, htest a (List.mem_cons_self ..) n hn, Option.bind_some,
            hrec, List.find?_cons]
          cases t a <;> rfl

end Linked

end ME2U
