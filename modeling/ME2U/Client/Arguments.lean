import ME2U.Client.ReadBuf
import ME2U.Client.Reply

/-!
# The arguments of the handlers

A handler is given the string behind the first word and one character, and `process_msg` goes once
more over a word and one character. Each of the steps may go over the NUL that ends the body. Behind
the body the block has the four bytes of the ending, cleared, and a step goes over one of them at
most.

* `ArgumentsInside`: the pointers, and what is read through them.
* `serverFrame_append`: what is behind the block makes no difference.
* `argumentsInside`: for every block that `process_string` returns.
-/

namespace ME2U.Client

/-- The pointers that are derived from a string of the server stay in its block, each at or before a
NUL there, and nothing is read behind the block. -/
structure ArgumentsInside (blk : Block) : Prop where
  /-- `process_str + first_wd_l + 1`, and `msg + name_len + 1` behind that. -/
  pointers : ∃ n m s t, wordLength blk = .ok n ∧ n + 1 < blk.length ∧
    cstr (blk.drop (n + 1)) = .ok s ∧
    wordLength (blk.drop (n + 1)) = .ok m ∧ (n + 1) + (m + 1) < blk.length ∧
      cstr (blk.drop ((n + 1) + (m + 1))) = .ok t
  /-- `word_length`, the comparisons, and the handlers with all that they call. -/
  reads : ∀ slack, StaysInside (serverFrame slack) blk

/-! ## Functions of a string -/

section Congruence

variable {p p' : Block} {s : Bytes}

/-- `strcmp` looks at the string of its second argument only. -/
theorem strcmpEq_congr (u : Block) (hp : cstr p = .ok s) (hp' : cstr p' = .ok s) :
    strcmpEq u p = strcmpEq u p' := by
  obtain ⟨h0, q, rfl⟩ := exists_of_cstr hp
  obtain ⟨-, q', rfl⟩ := exists_of_cstr hp'
  clear hp hp'
  induction u generalizing s with
  | nil => rfl
  | cons c u ih =>
      cases c with
      | none => rfl
      | some a =>
          cases s with
          | nil =>
              by_cases ha : a = 0
              · simp [strcmpEq, ha]
              · simp [strcmpEq, ha]
          | cons b s =>
              have hrest := ih (s := s) fun h => h0 (List.mem_cons_of_mem b h)
              simp only [cells, List.map_cons, List.cons_append, strcmpEq] at hrest ⊢
              rw [hrest]

/-- The search depends on the string in the block only. -/
theorem findUser_congr (slack : Slack) (users : List UserStruct) (hp : cstr p = .ok s)
    (hp' : cstr p' = .ok s) : findUser slack users p = findUser slack users p' := by
  induction users with
  | nil => rfl
  | cons u users ih => rw [findUser, findUser, strcmpEq_congr _ hp hp', ih]

/-- So does the answer to a message. -/
theorem confirmFrom_congr (hp : cstr p = .ok s) (hp' : cstr p' = .ok s) :
    confirmFrom p = confirmFrom p' := by
  unfold confirmFrom strcat
  rw [hp, hp']

/-- What a handler does depends on the string it is given, and on what `process_msg` does with
it. -/
theorem handler_congr (slack : Slack) (hp : cstr p = .ok s) (hp' : cstr p' = .ok s)
    (hmsg : processMsg slack p = processMsg slack p') (v : ServerVerb) :
    handler slack p v = handler slack p' v := by
  cases v with
  | utsil =>
      unfold handler listUsers
      rw [hp, hp']
  | ot =>
      unfold handler msgConfirmed
      simp only [findUser_congr slack _ hp hp']
  | edne =>
      unfold handler noUserExists
      rw [hp, hp']
  | fromUser =>
      unfold handler
      rw [hmsg, confirmFrom_congr hp hp']
  | uoff =>
      unfold handler someoneExited
      rw [hp, hp']
  | eyb => rfl

end Congruence

/-! ## What is behind the block -/

/-- A word goes on being one when there is more behind its separator. -/
theorem wordLength_append_of_ok {p : Block} {n : ℕ} (h : wordLength p = .ok n) (q : Block) :
    wordLength (p ++ q) = .ok n := by
  obtain ⟨w, c, r, rfl, hw, hc, rfl⟩ := exists_of_wordLength h
  rw [List.append_assoc, List.cons_append]
  exact wordLength_cells hw hc (r ++ q)

/-- A message with its name and its text in the block. -/
theorem processMsg_append (slack : Slack) {p : Block} {m : ℕ} {t : Bytes}
    (hlen : wordLength p = .ok m)
    (htext : cstr (p.drop (m + 1)) = .ok t) (q : Block) :
    processMsg slack (p ++ q) = processMsg slack p := by
  have hroom : m + 1 ≤ p.length := by
    have hlt := length_lt_of_cstr htext
    rw [List.length_drop] at hlt
    omega
  apply processMsg_congr slack (wordLength_append_of_ok hlen q) hlen
  · obtain ⟨w, c, r, rfl, -, -, rfl⟩ := exists_of_wordLength hlen
    rw [List.append_assoc, memcpy_cells_word, memcpy_cells_word]
  · rw [List.drop_append_of_le_length hroom, cstr_append_of_ok htext q, htext]

/-- A string of which the first word, what is behind that and the message there have their ends in
the block. -/
theorem serverFrame_append (slack : Slack) {p : Block} {n m : ℕ} {s t : Bytes}
    (hlen : wordLength p = .ok n)
    (hrest : cstr (p.drop (n + 1)) = .ok s) (hname : wordLength (p.drop (n + 1)) = .ok m)
    (htext : cstr (p.drop ((n + 1) + (m + 1))) = .ok t) (q : Block) :
    serverFrame slack (p ++ q) = serverFrame slack p := by
  have hroom : n + 1 ≤ p.length := by
    have hlt := length_lt_of_cstr hrest
    rw [List.length_drop] at hlt
    omega
  rw [← List.drop_drop] at htext
  have hmsg := processMsg_append slack hname htext q
  have hhandler := handler_congr slack (cstr_append_of_ok hrest q) hrest hmsg
  have hselected : firstSelected ServerVerb.text (p ++ q) n ServerVerb.all =
      firstSelected ServerVerb.text p n ServerVerb.all := by
    obtain ⟨w, c, r, rfl, hw, -, rfl⟩ := exists_of_wordLength hlen
    rw [List.append_assoc, firstSelected_eq _ (strncmpEq_cells_word hw _),
      firstSelected_eq _ (strncmpEq_cells_word hw _)]
  rw [serverFrame_eq, serverFrame_eq, wordLength_append_of_ok hlen q, hlen,
    mem_ok_bind, mem_ok_bind, hselected, List.drop_append_of_le_length hroom]
  simp only [hhandler]

/-! ## The blocks of `process_string` -/

/-- Two steps go over two of the four cleared bytes at most. -/
theorem argumentsInside_textBlock {body : Bytes} (h0 : 0 ∉ body) :
    ArgumentsInside (textBlock body 4) := by
  obtain ⟨j, hj, hdrop⟩ := exists_drop_firstWord body (k := 4) (by decide)
  obtain ⟨i, hi, hdrop'⟩ := exists_drop_firstWord (behindWord body) (k := j) (by omega)
  have hbehind : 0 ∉ behindWord body := fun h => h0 (List.mem_of_mem_drop h)
  have hbehind' : 0 ∉ behindWord (behindWord body) := fun h => hbehind (List.mem_of_mem_drop h)
  set n := (firstWord body).length with hn
  set m := (firstWord (behindWord body)).length with hm
  have hlen : wordLength (textBlock body 4) = .ok n := wordLength_firstWord body (by decide)
  have hrest : cstr ((textBlock body 4).drop (n + 1)) = .ok (behindWord body) := by
    rw [hdrop, cstr_textBlock hbehind (by omega)]
  have hname : wordLength ((textBlock body 4).drop (n + 1)) = .ok m := by
    rw [hdrop, wordLength_firstWord _ (by omega)]
  have htext : cstr ((textBlock body 4).drop ((n + 1) + (m + 1))) =
      .ok (behindWord (behindWord body)) := by
    rw [← List.drop_drop, hdrop, hdrop', cstr_textBlock hbehind' (by omega)]
  have hinside : ∀ {k : ℕ} {s : Bytes}, cstr ((textBlock body 4).drop k) = .ok s →
      k < (textBlock body 4).length := by
    intro k s hs
    have hlt := length_lt_of_cstr hs
    rw [List.length_drop] at hlt
    omega
  exact
    { pointers := ⟨n, m, _, _, hlen, hinside hrest, hrest, hname, hinside htext, htext⟩
      reads := fun slack => serverFrame_append slack hlen hrest hname htext }

/-- **The arguments stay in the frame**: for every string that `process_string` returns, which has
four bytes behind its body. -/
theorem argumentsInside {buf blk : Block} {s s' : RecvBuf}
    (hret : (processString buf).run s = (.ok (some blk), s')) :
    ∃ body, 0 ∉ body ∧ blk = textBlock body 4 ∧ ArgumentsInside blk := by
  obtain ⟨body, h0, rfl⟩ := exists_of_processString hret
  exact ⟨body, h0, rfl, argumentsInside_textBlock h0⟩

/-- `FROM` with nothing behind it. -/
theorem argumentsInside_from : ∃ body, 0 ∉ body ∧ textBlock msgFrom 4 = textBlock body 4 ∧
    ArgumentsInside (textBlock msgFrom 4) := by
  have h0 : 0 ∉ msgFrom := by decide
  exact argumentsInside (run_processString_frame h0 (by decide))

end ME2U.Client
