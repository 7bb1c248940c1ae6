import ME2U.Client.Windows

/-!
# The reply to a message and its array

The client confirms a `FROM` with a `MORF`, and copies all that is behind the first word into it,
the message with the name of its sender, into an array of 40 bytes. Who sends a message chooses how
long that is.

* `exists_of_processString`: what `process_string` returns is a string with four NULs behind it.
* `fromMsg_textBlock`: what the handler of `FROM` gets is the text behind the first word.
* `confirmFrom_fits_iff`: the reply fits exactly where that text has at most 30 bytes.
-/

namespace ME2U.Client

/-! ## What `process_string` returns -/

/-- The copy of a string without its last four bytes. -/
theorem memcpy_dropLast_four {q : Bytes} {r : Block} (hlen : 4 ≤ q.length) :
    memcpy (calloc q.length) (cells q ++ some 0 :: r) (q.length - 4) =
      .ok (textBlock (q.take (q.length - 4)) 4) := by
  have hcells : cells q ++ some 0 :: r =
      cells (q.take (q.length - 4)) ++ (cells (q.drop (q.length - 4)) ++ some 0 :: r) := by
    rw [← List.append_assoc, ← cells_append, List.take_append_drop]
  have hle : (q.take (q.length - 4)).length = q.length - 4 := by
    rw [List.length_take]
    omega
  rw [hcells, memcpy_calloc hle.symm (by omega)]
  congr 2
  omega

/-- What is handed out of the buffer is a string with four NULs behind it. -/
theorem exists_of_takeFrame {s s' : RecvBuf} {blk : Block}
    (h : takeFrame.run s = (.ok (some blk), s')) :
    ∃ body, 0 ∉ body ∧ blk = textBlock body 4 := by
  unfold takeFrame at h
  rw [Eff.run_get_bind] at h
  obtain ⟨full, s₁, -, h⟩ := Eff.run_bind_eq_ok_iff.mp h
  obtain ⟨len, hlen, h⟩ := Eff.run_lift_bind_eq_ok_iff.mp h
  obtain ⟨q, hq, rfl⟩ : ∃ q, cstr full = .ok q ∧ q.length = len := by
    unfold strlen at hlen
    cases hfull : cstr full with
    | error f => rw [hfull] at hlen; cases hlen
    | ok q => rw [hfull] at hlen; exact ⟨q, rfl, Except.ok.inj hlen⟩
  obtain ⟨h0, r, rfl⟩ := exists_of_cstr hq
  split_ifs at h with hshort
  · cases h
  obtain ⟨ends, -, h⟩ := Eff.run_lift_bind_eq_ok_iff.mp h
  cases ends with
  | false => cases h
  | true =>
      rw [if_pos rfl, memcpy_dropLast_four (Nat.not_lt.mp hshort), Eff.run_lift_ok_bind] at h
      obtain ⟨_, _, -, h⟩ := Eff.run_bind_eq_ok_iff.mp h
      cases h
      exact ⟨_, fun hmem => h0 (List.mem_of_mem_take hmem), rfl⟩

/-- **What `process_string` returns** is a string with four NULs behind it. -/
theorem exists_of_processString {buf blk : Block} {s s' : RecvBuf}
    (h : (processString buf).run s = (.ok (some blk), s')) :
    ∃ body, 0 ∉ body ∧ blk = textBlock body 4 := by
  unfold processString at h
  obtain ⟨size, s₁, -, h⟩ := Eff.run_bind_eq_ok_iff.mp h
  rw [Eff.run_get_bind] at h
  obtain ⟨full, s₂, -, h⟩ := Eff.run_bind_eq_ok_iff.mp h
  obtain ⟨len, s₃, -, h⟩ := Eff.run_bind_eq_ok_iff.mp h
  obtain ⟨_, s₄, -, h⟩ := Eff.run_bind_eq_ok_iff.mp h
  rw [Eff.run_get_bind] at h
  obtain ⟨full', s₅, -, h⟩ := Eff.run_bind_eq_ok_iff.mp h
  obtain ⟨full'', s₆, -, h⟩ := Eff.run_bind_eq_ok_iff.mp h
  rw [Eff.run_modify_bind] at h
  exact exists_of_takeFrame h

/-! ## What the handler of `FROM` gets -/

/-- The first words that select the handler of `FROM`. -/
def TakesFrom (w : Bytes) : Prop := pick ServerVerb.text ServerVerb.all w = some .fromUser

instance (w : Bytes) : Decidable (TakesFrom w) := inferInstanceAs (Decidable (_ = _))

/-- What the handler of `FROM` gets of a string is the text behind the first word. -/
theorem fromMsg_textBlock (body : Bytes) : ∃ j ≠ 0, fromMsg (textBlock body 4) =
    .ok (if TakesFrom (firstWord body) then some (textBlock (behindWord body) j) else none) := by
  obtain ⟨j, hj, hdrop⟩ := drop_firstWord body (k := 4) (by decide)
  refine ⟨j, hj, ?_⟩
  unfold fromMsg
  rw [wordLength_firstWord body (by decide), ok_bind,
    firstSelected_eq _ (fun verb => strncmpEq_firstWord body verb (by decide)), ok_bind, hdrop]
  rfl

/-- **When the reply fits its array**: for every string that `process_string` returns and that is
handed to the handler of `FROM`, exactly where the text behind its first word, the name of the
sender and the message, has at most 30 bytes. Otherwise `strcat` writes behind the array. -/
theorem confirmFrom_fits_iff {buf blk rest : Block} {s s' : RecvBuf} {body : Bytes}
    (hret : (processString buf).run s = (.ok (some blk), s')) (hbody : cstr blk = .ok body)
    (hfrom : fromMsg blk = .ok (some rest)) (c : Process) :
    ((confirmFrom rest).run c).1 = .ok () ↔ (behindWord body).length ≤ 30 := by
  obtain ⟨body', h0, rfl⟩ := exists_of_processString hret
  rw [cstr_textBlock h0 (by decide)] at hbody
  obtain rfl := Except.ok.inj hbody
  obtain ⟨j, hj, hmsg⟩ := fromMsg_textBlock body'
  rw [hmsg] at hfrom
  split_ifs at hfrom with htakes
  · obtain rfl : textBlock (behindWord body') j = rest := by simpa using hfrom
    have hbehind : 0 ∉ behindWord body' := fun hmem => h0 (List.mem_of_mem_drop hmem)
    rw [run_confirmFrom hbehind hj]
    split_ifs with hlen
    · exact iff_of_true rfl hlen
    · exact iff_of_false (by simp) hlen
  · cases hfrom

/-- A short message. -/
theorem confirmFrom_fits_hi :
    ((confirmFrom (textBlock (encode ['a', ' ', 'h', 'i']) 4)).run .initial).1 = .ok () := by
  have h0 : 0 ∉ encode ['F', 'R', 'O', 'M', ' ', 'a', ' ', 'h', 'i'] := by decide
  have hframe := run_processString_frame h0 (by decide)
  exact (confirmFrom_fits_iff hframe (cstr_textBlock (by decide) (by decide))
    (by decide) .initial).mpr
    (by decide)

/-- A message of 29 characters does not fit. -/
theorem not_confirmFrom_fits : ¬∀ (buf blk rest : Block) (s s' : RecvBuf),
    (processString buf).run s = (.ok (some blk), s') → fromMsg blk = .ok (some rest) →
      ∀ c, ((confirmFrom rest).run c).1 = .ok () := by
  intro hall
  have h0 : 0 ∉ encode ['F', 'R', 'O', 'M', ' ', 'a', ' '] ++ List.replicate 29 120 := by decide
  have hframe := run_processString_frame h0 (by decide)
  have hrun :=
    hall _ _ (textBlock (encode ['a', ' '] ++ List.replicate 29 120) 4) _ _ hframe (by decide)
    .initial
  rw [run_confirmFrom (by decide) (by decide), if_neg (by decide)] at hrun
  cases hrun

end ME2U.Client
