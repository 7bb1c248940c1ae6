import Mathlib.Data.List.TakeWhile
import ME2U.Client.Chat

/-!
# The first word of a string

What is read and what is typed is taken apart at the end of its first word: `word_length` counts the
bytes up to the first separator, and the handlers get what is behind that.

* `firstWord`, `behindWord`: the parts; `firstWord_cases`: together they are the string.
* `wordLength_firstWord`, `strncmpEq_firstWord`: the length of the word, and its comparisons.
* `drop_firstWord`: the text that a handler gets.
-/

namespace ME2U.Client

/-- The first word of a string. -/
def firstWord (body : Bytes) : Bytes := body.takeWhile fun c => !decide (IsSep c)

/-- What is behind the first word and the character behind that. -/
def behindWord (body : Bytes) : Bytes := body.drop ((firstWord body).length + 1)

/-- There is no separator in the first word. -/
theorem isWord_firstWord (body : Bytes) : IsWord (firstWord body) := by
  intro c hc
  simpa using List.mem_takeWhile_imp hc

/-- A string is its first word, or has a separator behind that. -/
theorem firstWord_cases (body : Bytes) :
    (firstWord body = body ∧ behindWord body = []) ∨
      ∃ c, IsSep c ∧ body = firstWord body ++ c :: behindWord body := by
  cases hdrop : body.dropWhile fun c => !decide (IsSep c) with
  | nil =>
      have hword : firstWord body = body := by
        have happ := List.takeWhile_append_dropWhile (p := fun c => !decide (IsSep c)) (l := body)
        rwa [hdrop, List.append_nil] at happ
      refine .inl ⟨hword, ?_⟩
      unfold behindWord
      rw [hword, List.drop_eq_nil_of_le (Nat.le_succ _)]
  | cons c t =>
      have hbody : firstWord body ++ c :: t = body := by
        rw [← hdrop]
        exact List.takeWhile_append_dropWhile
      have hc : IsSep c := by
        have hnot := List.head?_dropWhile_not (fun c => !decide (IsSep c)) body
        rw [hdrop] at hnot
        simpa using hnot
      refine .inr ⟨c, hc, ?_⟩
      have hbehind : behindWord body = t := by
        unfold behindWord
        generalize firstWord body = w at hbody
        subst hbody
        simp
      rw [hbehind, hbody]

/-- A terminated string begins with its first word and a separator. -/
theorem exists_cells_eq (body : Bytes) (q : Block) : ∃ c rest, IsSep c ∧
    cells body ++ some 0 :: q = cells (firstWord body) ++ some c :: rest := by
  rcases firstWord_cases body with ⟨hword, -⟩ | ⟨c, hc, hbody⟩
  · refine ⟨0, q, .inl rfl, ?_⟩
    rw [hword]
  · refine ⟨c, cells (behindWord body) ++ some 0 :: q, hc, ?_⟩
    conv_lhs => rw [hbody]
    simp [cells]

/-- A block with a string begins with the first word and a separator. -/
theorem exists_textBlock_eq (body : Bytes) {k : ℕ} (hk : k ≠ 0) :
    ∃ c rest, IsSep c ∧ textBlock body k = cells (firstWord body) ++ some c :: rest := by
  obtain ⟨j, rfl⟩ := Nat.exists_eq_succ_of_ne_zero hk
  exact exists_cells_eq body (zeros j)

/-- The scan of the client counts its bytes, -/
theorem wordLength_firstWord (body : Bytes) {k : ℕ} (hk : k ≠ 0) :
    wordLength (textBlock body k) = .ok (firstWord body).length := by
  obtain ⟨c, rest, hc, hblk⟩ := exists_textBlock_eq body hk
  rw [hblk, wordLength_cells (isWord_firstWord body) hc]

/-- and the comparison asks whether it begins the verb. -/
theorem strncmpEq_firstWord (body verb : Bytes) {k : ℕ} (hk : k ≠ 0) :
    strncmpEq (textBlock body k) verb (firstWord body).length =
      .ok (Selects (firstWord body) verb) := by
  obtain ⟨c, rest, -, hblk⟩ := exists_textBlock_eq body hk
  rw [hblk, strncmpEq_cells (isWord_firstWord body).zero_notMem (Nat.le_refl _),
    List.take_length, Selects]

/-- Behind the first word and the character behind that, at most one NUL is lost. -/
theorem exists_drop_firstWord (body : Bytes) {k : ℕ} (hk : k ≠ 0) : ∃ j, k ≤ j + 1 ∧
    (textBlock body k).drop ((firstWord body).length + 1) = textBlock (behindWord body) j := by
  rcases firstWord_cases body with ⟨hword, hbehind⟩ | ⟨c, hc, hbody⟩
  · obtain ⟨j, rfl⟩ := Nat.exists_eq_succ_of_ne_zero hk
    refine ⟨j, Nat.le_refl _, ?_⟩
    have hblk : textBlock body (j + 1) = (cells body ++ [some 0]) ++ zeros j := by
      rw [textBlock, zeros_succ j]
      simp
    have hlen : body.length + 1 = (cells body ++ [some 0]).length := by simp
    rw [hword, hbehind, hblk, hlen, List.drop_left]
    rfl
  · refine ⟨k, Nat.le_succ k, ?_⟩
    have hsplit : textBlock body k = textBlock ((firstWord body ++ [c]) ++ behindWord body) k := by
      conv_lhs => rw [hbody]
      simp
    have hlen : (firstWord body).length + 1 = (firstWord body ++ [c]).length := by simp
    rw [hsplit, hlen, drop_textBlock]

/-- What the handler of a frame gets is the text behind the first word. -/
theorem drop_firstWord (body : Bytes) {k : ℕ} (hk : 1 < k) :
    ∃ j ≠ 0, (textBlock body k).drop ((firstWord body).length + 1) =
      textBlock (behindWord body) j := by
  obtain ⟨j, hj, hdrop⟩ := exists_drop_firstWord body (k := k) (by omega)
  exact ⟨j, by omega, hdrop⟩

end ME2U.Client
