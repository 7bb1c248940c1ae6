import Mathlib.Data.List.Basic
import Mathlib.Tactic.Common

/-!
# Scanning a list that changes

A loop `for x in items` over a mutable list keeps an index: it reads the item at the index, moves
the index on, and ends when the index is at or behind the end of the list. Between its steps items
may be appended and removed by others. The index does not move with the items.

* `Scan.PassedOver x`: an item below the index is removed while `x` is the next one to be read. It
  moves to the index just left, and the scan never comes back.
* `Scan.count_visited_run_iff`: an item that stays in the list is visited exactly once by a scan
  that runs to the end iff it is never passed over. It is never visited twice.
* `Scan.run_next`: without interference the items are visited in order up to the first one that
  ends the scan.
-/

namespace ME2U

variable {α : Type} [DecidableEq α]

/-! ## Positions -/

/-- Where an item stands after another one was removed. -/
theorem idxOf_erase_of_ne {l : List α} (hl : l.Nodup) {x y : α} (hx : x ∈ l) (hy : y ∈ l)
    (hne : x ≠ y) :
    (l.erase y).idxOf x = if l.idxOf y < l.idxOf x then l.idxOf x - 1 else l.idxOf x := by
  induction l with
  | nil => cases hx
  | cons a l ih =>
      obtain ⟨ha, hnd⟩ := List.nodup_cons.mp hl
      by_cases hay : a = y
      · subst hay
        rw [List.erase_cons_head, List.idxOf_cons_self, List.idxOf_cons_ne _ (Ne.symm hne)]
        simp
      · rw [List.erase_cons_tail (by simpa using hay)]
        have hy' : y ∈ l := (List.mem_cons.mp hy).resolve_left (Ne.symm hay)
        by_cases hax : a = x
        · subst hax
          simp
        · have hx' : x ∈ l := (List.mem_cons.mp hx).resolve_left (Ne.symm hax)
          rw [List.idxOf_cons_ne _ hax, List.idxOf_cons_ne _ hax, List.idxOf_cons_ne _ hay,
            ih hnd hx' hy']
          split_ifs <;> omega

/-! ## The scan -/

/-- How a scan stands. -/
inductive ScanStatus
  /-- It reads on. -/
  | running
  /-- Its index was at or behind the end of the list. -/
  | exhausted
  /-- The loop was left at an item. -/
  | stopped
  deriving DecidableEq

/-- A list and a loop over it. -/
structure Scan (α : Type) where
  /-- The list. -/
  items : List α
  /-- The index of the iterator. -/
  idx : ℕ
  /-- The items the loop body was run on, in order. -/
  visited : List α
  /-- Whether the loop goes on. -/
  status : ScanStatus

/-- What may happen: the loop takes a step, or the list is changed by others. -/
inductive ScanEvent (α : Type)
  | next
  | append (a : α)
  | remove (a : α)

namespace Scan

/-- A loop about to start. -/
def start (items : List α) : Scan α := ⟨items, 0, [], .running⟩

/-- One step of the loop, whose body leaves it at the items that satisfy `halts`. -/
def next (halts : α → Bool) (s : Scan α) : Scan α :=
  match s.status with
  | .running =>
      match s.items[s.idx]? with
      | none => { s with status := .exhausted }
      | some a => ⟨s.items, s.idx + 1, s.visited ++ [a], if halts a then .stopped else .running⟩
  | _ => s

/-- One event. The items of a list are different objects, so that one in the list is not appended
again. -/
def step (halts : α → Bool) (s : Scan α) : ScanEvent α → Scan α
  | .next => s.next halts
  | .append a => if a ∈ s.items then s else { s with items := s.items ++ [a] }
  | .remove a => { s with items := s.items.erase a }

/-- A sequence of events. -/
def run (halts : α → Bool) : Scan α → List (ScanEvent α) → Scan α
  | s, [] => s
  | s, e :: es => run halts (s.step halts e) es

/-- `x` is in the list from the start to the end of the events. -/
def Stays (halts : α → Bool) (x : α) : Scan α → List (ScanEvent α) → Prop
  | s, [] => x ∈ s.items
  | s, e :: es => x ∈ s.items ∧ Stays halts x (s.step halts e) es

/-- An item below the index is removed while `x` is the next item to be read. -/
def PassesOver (x : α) (s : Scan α) : ScanEvent α → Prop
  | .remove a => s.status = .running ∧ a ∈ s.items ∧ s.items.idxOf a < s.idx ∧
    s.items.idxOf x = s.idx
  | _ => False

/-- `x` is not passed over in any of the events. -/
def NeverPassedOver (halts : α → Bool) (x : α) : Scan α → List (ScanEvent α) → Prop
  | _, [] => True
  | s, e :: es => ¬PassesOver x s e ∧ NeverPassedOver halts x (s.step halts e) es

instance decidableStays (halts : α → Bool) (x : α) :
    (s : Scan α) → (es : List (ScanEvent α)) → Decidable (Stays halts x s es)
  | s, [] => inferInstanceAs (Decidable (x ∈ s.items))
  | s, e :: es =>
      haveI := decidableStays halts x (s.step halts e) es
      inferInstanceAs (Decidable (x ∈ s.items ∧ Stays halts x (s.step halts e) es))

instance decidablePassesOver (x : α) (s : Scan α) :
    (e : ScanEvent α) → Decidable (PassesOver x s e)
  | .next | .append _ => inferInstanceAs (Decidable False)
  | .remove _ => inferInstanceAs (Decidable (_ ∧ _ ∧ _ ∧ _))

instance decidableNeverPassedOver (halts : α → Bool) (x : α) :
    (s : Scan α) → (es : List (ScanEvent α)) → Decidable (NeverPassedOver halts x s es)
  | _, [] => inferInstanceAs (Decidable True)
  | s, e :: es =>
      haveI := decidableNeverPassedOver halts x (s.step halts e) es
      inferInstanceAs (Decidable (¬PassesOver x s e ∧ NeverPassedOver halts x (s.step halts e) es))

variable {halts : α → Bool} {x : α} {s : Scan α} {es : List (ScanEvent α)}

/-! ## Where a staying item stands -/

/-- The scan has yet to come to `x`. -/
structure Ahead (x : α) (s : Scan α) : Prop where
  running : s.status = .running
  le_idxOf : s.idx ≤ s.items.idxOf x
  notMem : x ∉ s.visited

/-- The scan is past `x`, having visited it `n` times. -/
structure Behind (n : ℕ) (x : α) (s : Scan α) : Prop where
  idxOf_lt : s.items.idxOf x < s.idx
  count_eq : s.visited.count x = n

/-- What stays is still there. -/
theorem Stays.mem (h : Stays halts x s es) : x ∈ s.items := by
  cases es with
  | nil => exact h
  | cons e es => exact h.1

/-- **All an event can do**: nothing, end the scan, visit the item at the index, append a new item,
or remove one. -/
theorem step_cases (halts : α → Bool) (s : Scan α) (e : ScanEvent α) :
    (s.step halts e = s ∧ ∀ x, ¬PassesOver x s e) ∨
    (e = .next ∧ s.status = .running ∧ s.items.length ≤ s.idx ∧
      s.step halts e = { s with status := .exhausted }) ∨
    (∃ a, e = .next ∧ s.status = .running ∧ s.items[s.idx]? = some a ∧
      s.step halts e =
        ⟨s.items, s.idx + 1, s.visited ++ [a], if halts a then .stopped else .running⟩) ∨
    (∃ a, e = .append a ∧ a ∉ s.items ∧ s.step halts e = { s with items := s.items ++ [a] }) ∨
    (∃ a, e = .remove a ∧ a ∈ s.items ∧ s.step halts e = { s with items := s.items.erase a }) := by
  cases e with
  | next =>
      by_cases hrun : s.status = .running
      · cases hget : s.items[s.idx]? with
        | none =>
            have hlen : s.items.length ≤ s.idx := List.getElem?_eq_none_iff.mp hget
            exact .inr (.inl ⟨rfl, hrun, hlen, by simp [step, next, hrun, hget]⟩)
        | some a => exact .inr (.inr (.inl ⟨a, rfl, hrun, rfl, by simp [step, next, hrun, hget]⟩))
      · refine .inl ⟨?_, fun _ => id⟩
        unfold step next
        cases hst : s.status <;> simp_all
  | append a =>
      by_cases ha : a ∈ s.items
      · exact .inl ⟨if_pos ha, fun _ => id⟩
      · exact .inr (.inr (.inr (.inl ⟨a, rfl, ha, if_neg ha⟩)))
  | remove a =>
      by_cases ha : a ∈ s.items
      · exact .inr (.inr (.inr (.inr ⟨a, rfl, ha, rfl⟩)))
      · refine .inl ⟨?_, fun _ h => ha h.2.1⟩
        unfold step
        simp [List.erase_of_not_mem ha]

/-- No event puts an item in twice. -/
theorem nodup_step (hnd : s.items.Nodup) (e : ScanEvent α) : (s.step halts e).items.Nodup := by
  obtain ⟨h, -⟩ | ⟨-, -, -, h⟩ | ⟨a, -, -, -, h⟩ | ⟨a, -, ha, h⟩ | ⟨a, -, -, h⟩ :=
    step_cases halts s e
  · rwa [h]
  · rwa [h]
  · rwa [h]
  · rw [h]
    apply List.nodup_append.mpr
    refine ⟨hnd, by simp, fun b hb c hc => ?_⟩
    obtain rfl := List.mem_singleton.mp hc
    exact fun hbc => ha (hbc ▸ hb)
  · rw [h]
    exact hnd.erase a

/-- Removing another item moves `x` to the front by one or not at all. -/
theorem idxOf_erase_cases {l : List α} (hnd : l.Nodup) {a : α} (hx : x ∈ l) (ha : a ∈ l)
    (hx' : x ∈ l.erase a) :
    (l.idxOf a < l.idxOf x ∧ (l.erase a).idxOf x = l.idxOf x - 1) ∨
      (l.idxOf x ≤ l.idxOf a ∧ (l.erase a).idxOf x = l.idxOf x) := by
  have hne : x ≠ a := (hnd.mem_erase_iff.mp hx').1
  have h := idxOf_erase_of_ne hnd hx ha hne
  by_cases hlt : l.idxOf a < l.idxOf x
  · exact .inl ⟨hlt, by rwa [if_pos hlt] at h⟩
  · exact .inr ⟨Nat.not_lt.mp hlt, by rwa [if_neg hlt] at h⟩

/-- Once the scan is past `x`, it stays past it and does not visit it again. -/
theorem Behind.step {n : ℕ} (hb : Behind n x s) (hnd : s.items.Nodup) (hx : x ∈ s.items)
    {e : ScanEvent α} (hx' : x ∈ (s.step halts e).items) : Behind n x (s.step halts e) := by
  have hlt := hb.idxOf_lt
  obtain ⟨h, -⟩ | ⟨-, -, -, h⟩ | ⟨a, -, -, ha, h⟩ | ⟨a, -, ha, h⟩ | ⟨a, -, ha, h⟩ :=
    step_cases halts s e <;> rw [h] at hx' ⊢
  · exact hb
  · exact ⟨hlt, hb.count_eq⟩
  · -- the item visited stands at the index, so it is not `x`
    have hne : a ≠ x := by
      rintro rfl
      obtain ⟨hi, hget⟩ := List.getElem?_eq_some_iff.mp ha
      have hidx := hnd.idxOf_getElem s.idx hi
      rw [hget] at hidx
      omega
    refine ⟨Nat.lt_succ_of_lt hlt, ?_⟩
    simpa [hne] using hb.count_eq
  · refine ⟨?_, hb.count_eq⟩
    rwa [List.idxOf_append_of_mem hx]
  · refine ⟨?_, hb.count_eq⟩
    show (s.items.erase a).idxOf x < s.idx
    obtain ⟨-, hidx⟩ | ⟨-, hidx⟩ := idxOf_erase_cases hnd hx ha hx' <;> omega

/-- So it is for the rest of the run. -/
theorem Behind.run {n : ℕ} (hb : Behind n x s) (hnd : s.items.Nodup) (hstay : Stays halts x s es) :
    Behind n x (s.run halts es) := by
  induction es generalizing s with
  | nil => exact hb
  | cons e es ih => exact ih (hb.step hnd hstay.1 hstay.2.mem) (nodup_step hnd e) hstay.2

/-- What is behind the index is not passed over. -/
theorem Behind.neverPassedOver {n : ℕ} (hb : Behind n x s) (hnd : s.items.Nodup)
    (hstay : Stays halts x s es) : NeverPassedOver halts x s es := by
  induction es generalizing s with
  | nil => trivial
  | cons e es ih =>
      refine ⟨?_, ih (hb.step hnd hstay.1 hstay.2.mem) (nodup_step hnd e) hstay.2⟩
      have hlt := hb.idxOf_lt
      cases e with
      | remove a => exact fun hp => absurd hp.2.2.2 (Nat.ne_of_lt hlt)
      | next | append a => exact id

/-- What a step does to an item that is ahead: it is passed over, visited, or still ahead, or the
loop was left. -/
theorem Ahead.step (ha : Ahead x s) (hnd : s.items.Nodup) (hx : x ∈ s.items) {e : ScanEvent α}
    (hx' : x ∈ (s.step halts e).items) :
    (PassesOver x s e ∧ Behind 0 x (s.step halts e)) ∨
    (¬PassesOver x s e ∧ (Ahead x (s.step halts e) ∨ Behind 1 x (s.step halts e) ∨
      (s.step halts e).status = .stopped)) := by
  have hle := ha.le_idxOf
  have hlt := List.idxOf_lt_length_of_mem hx
  obtain ⟨h, hno⟩ | ⟨-, -, hlen, h⟩ | ⟨a, rfl, -, hget, h⟩ | ⟨a, rfl, hmem,
      h⟩ | ⟨a, rfl, hmem, h⟩ :=
    step_cases halts s e
  · exact .inr ⟨hno x, .inl (by rwa [h])⟩
  · omega
  · refine .inr ⟨id, ?_⟩
    obtain ⟨hi, rfl⟩ := List.getElem?_eq_some_iff.mp hget
    have hidx := hnd.idxOf_getElem s.idx hi
    rw [h]
    by_cases hax : s.items[s.idx] = x
    · rw [hax] at hidx
      refine .inr (.inl ⟨Nat.lt_succ_of_le (Nat.le_of_eq hidx), ?_⟩)
      show (s.visited ++ [s.items[s.idx]]).count x = 1
      rw [hax, List.count_append, List.count_eq_zero_of_not_mem ha.notMem]
      simp
    · have hlt : s.idx < s.items.idxOf x := by
        apply Nat.lt_of_le_of_ne hle
        intro heq
        apply hax
        have hget := List.getElem_idxOf hlt
        simpa [← heq] using hget
      cases hhalt : halts s.items[s.idx] with
      | true => exact .inr (.inr rfl)
      | false =>
          refine .inl ⟨rfl, hlt, ?_⟩
          show x ∉ s.visited ++ [s.items[s.idx]]
          simp [ha.notMem, Ne.symm hax]
  · refine .inr ⟨id, .inl ?_⟩
    rw [h]
    exact ⟨ha.running, by rwa [List.idxOf_append_of_mem hx], ha.notMem⟩
  · rw [h] at hx' ⊢
    obtain ⟨hbelow, hidx⟩ | ⟨habove, hidx⟩ := idxOf_erase_cases hnd hx hmem hx'
    · by_cases hat : s.items.idxOf x = s.idx
      · -- `x` moves to the index just left
        refine .inl ⟨⟨ha.running, hmem, by omega, hat⟩, ?_, List.count_eq_zero_of_not_mem ha.notMem⟩
        show (s.items.erase a).idxOf x < s.idx
        omega
      · refine .inr ⟨fun hp => hat hp.2.2.2, .inl ⟨ha.running, ?_, ha.notMem⟩⟩
        show s.idx ≤ (s.items.erase a).idxOf x
        omega
    · refine .inr ⟨fun hp => ?_, .inl ⟨ha.running, ?_, ha.notMem⟩⟩
      · have hbelow := hp.2.2.1
        omega
      · show s.idx ≤ (s.items.erase a).idxOf x
        omega

/-- A loop that was left stays left. -/
theorem status_run_of_stopped (h : s.status = .stopped) : (s.run halts es).status = .stopped := by
  induction es generalizing s with
  | nil => exact h
  | cons e es ih =>
      apply ih
      obtain ⟨hs, -⟩ | ⟨-, hr, -⟩ | ⟨a, -, hr, -⟩ | ⟨a, -, -, hs⟩ | ⟨a, -, -, hs⟩ :=
        step_cases halts s e
      · rwa [hs]
      · rw [h] at hr
        cases hr
      · rw [h] at hr
        cases hr
      · rwa [hs]
      · rwa [hs]

/-- **What a finished scan has visited.** From an item that is ahead and stays, a scan that runs to
the end comes by once, unless the item is passed over, and then not at all. -/
theorem Ahead.count_run (ha : Ahead x s) (hnd : s.items.Nodup) (hstay : Stays halts x s es)
    (hend : (s.run halts es).status = .exhausted) :
    (NeverPassedOver halts x s es ∧ (s.run halts es).visited.count x = 1) ∨
      (¬NeverPassedOver halts x s es ∧ (s.run halts es).visited.count x = 0) := by
  induction es generalizing s with
  | nil =>
      have hrun := ha.running
      rw [run] at hend
      rw [hend] at hrun
      cases hrun
  | cons e es ih =>
      have hnd' : (s.step halts e).items.Nodup := nodup_step hnd e
      obtain ⟨hpass, hbehind⟩ | ⟨hpass, hahead | hbehind | hstop⟩ :=
        ha.step hnd hstay.1 hstay.2.mem
      · exact .inr ⟨fun hn => hn.1 hpass, (hbehind.run hnd' hstay.2).count_eq⟩
      · obtain ⟨hn, hc⟩ | ⟨hn, hc⟩ := ih hahead hnd' hstay.2 hend
        · exact .inl ⟨⟨hpass, hn⟩, hc⟩
        · exact .inr ⟨fun h => hn h.2, hc⟩
      · exact .inl ⟨⟨hpass, hbehind.neverPassedOver hnd' hstay.2⟩,
          (hbehind.run hnd' hstay.2).count_eq⟩
      · unfold run at hend
        rw [status_run_of_stopped hstop] at hend
        cases hend

/-- **Visited once.** An item that stays in the list is visited exactly once by a scan that runs to
the end iff it is never passed over. -/
theorem count_visited_run_iff {items : List α} (hnd : items.Nodup)
    (hstay : Stays halts x (start items) es)
    (hend : ((start items).run halts es).status = .exhausted) :
    ((start items).run halts es).visited.count x = 1 ↔
      NeverPassedOver halts x (start items) es := by
  have ha : Ahead x (start items) := ⟨rfl, Nat.zero_le _, by simp [start]⟩
  obtain ⟨hn, hc⟩ | ⟨hn, hc⟩ := ha.count_run hnd hstay hend <;> simp [hn, hc]

/-! ## What ends a loop -/

/-- A loop that has not been left has visited no item that ends it. -/
theorem halts_eq_false_of_mem_visited (hs : s.status ≠ .stopped → ∀ a ∈ s.visited, halts a = false)
    (hend : (s.run halts es).status ≠ .stopped) {a : α} (ha : a ∈ (s.run halts es).visited) :
    halts a = false := by
  induction es generalizing s with
  | nil => exact hs hend a ha
  | cons e es ih =>
      refine ih (fun hne => ?_) hend ha
      obtain ⟨h, -⟩ | ⟨-, hrun, -, h⟩ | ⟨b, -, hrun, -, h⟩ | ⟨b, -, -, h⟩ | ⟨b, -, -, h⟩ :=
        step_cases halts s e <;> rw [h] at hne ⊢
      · exact hs hne
      · exact hs (by simp [hrun])
      · intro c hc
        rcases List.mem_append.mp hc with hc | hc
        · exact hs (by simp [hrun]) c hc
        · obtain rfl := List.mem_singleton.mp hc
          by_contra hh
          exact hne (if_pos (by simpa using hh))
      · exact hs hne
      · exact hs hne

/-- **A match is found.** A scan that is left at `x`, which stays and is never passed over, is left
at some item: it does not run to the end. -/
theorem status_run_ne_exhausted {items : List α} (hnd : items.Nodup) (hx : halts x = true)
    (hstay : Stays halts x (start items) es) (hnever : NeverPassedOver halts x (start items) es) :
    ((start items).run halts es).status ≠ .exhausted := by
  intro hend
  have hcount := (count_visited_run_iff hnd hstay hend).mpr hnever
  have hmem : x ∈ ((start items).run halts es).visited := List.count_pos_iff.mp (by omega)
  have hfalse := halts_eq_false_of_mem_visited (s := start items) (by simp [start])
    (by simp [hend]) hmem
  simp [hfalse] at hx

/-- A loop that was left was left at an item. -/
theorem visited_run_ne_nil (hs : s.status = .stopped → s.visited ≠ [])
    (hend : (s.run halts es).status = .stopped) : (s.run halts es).visited ≠ [] := by
  induction es generalizing s with
  | nil => exact hs hend
  | cons e es ih =>
      refine ih (fun hstop => ?_) hend
      obtain ⟨h, -⟩ | ⟨-, -, -, h⟩ | ⟨b, -, -, -, h⟩ | ⟨b, -, -, h⟩ | ⟨b, -, -, h⟩ :=
        step_cases halts s e <;> rw [h] at hstop ⊢
      · exact hs hstop
      · cases hstop
      · exact List.append_ne_nil_of_right_ne_nil s.visited (List.cons_ne_nil b [])
      · exact hs hstop
      · exact hs hstop

/-! ## Without interference -/

/-- The items up to the first one that ends the loop. -/
def seen (halts : α → Bool) : List α → List α
  | [] => []
  | a :: l => if halts a then [a] else a :: seen halts l

omit [DecidableEq α] in
/-- The last item seen is the first one that ends the loop, where there is one. -/
theorem getLast?_seen {l : List α} (h : l.any halts = true) :
    (seen halts l).getLast? = l.find? halts := by
  induction l with
  | nil => cases h
  | cons a l ih =>
      by_cases ha : halts a = true
      · simp [seen, ha]
      · have hl : l.any halts = true := by simpa [ha] using h
        have hne : seen halts l ≠ [] := by
          cases l with
          | nil => cases hl
          | cons b l =>
              unfold seen
              split <;> exact List.cons_ne_nil _ _
        unfold seen
        rw [if_neg ha, List.find?_cons_of_neg ha, ← ih hl]
        obtain ⟨c, m, hm⟩ := List.exists_cons_of_ne_nil hne
        rw [hm, List.getLast?_cons_cons]

/-- A loop that has ended does nothing more. -/
theorem run_next_of_ended (h : s.status ≠ .running) (n : ℕ) :
    s.run halts (List.replicate n .next) = s := by
  induction n with
  | zero => rfl
  | succ n ih =>
      have hstep : s.step halts .next = s := by
        unfold step next
        cases hst : s.status <;> simp_all
      rw [List.replicate_succ, run, hstep, ih]

/-- From an index inside the list, the loop alone visits the items behind it in order. -/
theorem run_next_of_running (halts : α → Bool) (pre post vis : List α) :
    (⟨pre ++ post, pre.length, vis, .running⟩ : Scan α).run halts
        (List.replicate (post.length + 1) .next) =
      ⟨pre ++ post, (pre ++ seen halts post).length, vis ++ seen halts post,
        if post.any halts then .stopped else .exhausted⟩ := by
  induction post generalizing pre vis with
  | nil => simp [run, step, next, seen]
  | cons a post ih =>
      rw [List.length_cons, List.replicate_succ, run]
      have hstep : (⟨pre ++ a :: post, pre.length, vis, .running⟩ : Scan α).step halts .next =
          ⟨pre ++ a :: post, pre.length + 1, vis ++ [a],
            if halts a then .stopped else .running⟩ := by
        simp [step, next]
      rw [hstep]
      by_cases ha : halts a = true
      · rw [if_pos ha, run_next_of_ended (by simp)]
        simp [seen, ha]
      · have hnext := ih (pre ++ [a]) (vis ++ [a])
        simp only [List.append_assoc, List.singleton_append, List.length_append,
          List.length_singleton] at hnext
        rw [if_neg ha, hnext]
        simp [seen, ha]

/-- **Without interference** the items are visited in order, up to the first one that ends the
loop. -/
theorem run_next (halts : α → Bool) (items : List α) :
    (start items).run halts (List.replicate (items.length + 1) .next) =
      ⟨items, (seen halts items).length, seen halts items,
        if items.any halts then .stopped else .exhausted⟩ := by
  simpa [start] using run_next_of_running halts [] items []

end Scan

end ME2U
