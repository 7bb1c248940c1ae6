import ME2U.Found.Delimited
import ME2U.Client.ChildFrames
import ME2U.Client.Dispatch

/-!
# The ends of `read_buf`

`read_buf` has `MAXLINE` bytes, and `read` may fill all of them, with no NUL among them. What is
then done with it as a string goes on behind it.

* `run_chat_ok`, `run_chat_error`: what `/chat` does with a line in any `read_buf`.
* `StaysInside`: what is behind a block makes no difference.
* `staysInside_iff`: for which reads this holds of `read_buf`.
-/

namespace ME2U.Client

/-! ## Words in written bytes -/

/-- The word in front of the first separator, where there is one. -/
theorem upTo_isSep_eq (s : Bytes) :
    upTo IsSep s = if ∃ c ∈ s, IsSep c then some (firstWord s) else none :=
  upTo_eq_ite s

theorem drop_cells (s : Bytes) (n : ℕ) : (cells s).drop n = cells (s.drop n) := List.map_drop.symm

/-- Where something is behind the first word, there is a separator. -/
theorem exists_isSep_of_mem_behindWord {s : Bytes} {b : UInt8} (h : b ∈ behindWord s) :
    ∃ c ∈ s, IsSep c := by
  rcases firstWord_cases s with ⟨-, hnil⟩ | ⟨c, hc, heq⟩
  · rw [hnil] at h
    cases h
  · exact ⟨c, by rw [heq]; simp, hc⟩

/-- A string goes on being one when there is more behind it. -/
theorem cstr_append_of_ok {p : Block} {t : Bytes} (h : cstr p = .ok t) (q : Block) :
    cstr (p ++ q) = .ok t := by
  obtain ⟨ht, r, rfl⟩ := exists_of_cstr h
  rw [List.append_assoc, List.cons_append]
  exact cstr_cells_append ht (r ++ q)

/-! ## A `/chat` in any `read_buf` -/

section Chat

variable {slack : Slack} {c : Process} {r : Bytes}

theorem mem_drop_of_mem_behindWord {s : Bytes} {b : UInt8} {n : ℕ}
    (h : b ∈ behindWord (s.drop (n + 1))) :
    b ∈ s.drop n := by
  have hmem : b ∈ s.drop (n + 1) := List.mem_of_mem_drop h
  rw [← List.drop_drop] at hmem
  exact List.mem_of_mem_drop hmem

/-- The line behind the command and the message in it, where a NUL is behind the name. -/
theorem exists_chatMessage (h0 : 0 ∈ behindWord (r.drop 6)) : ∃ b, IsSep b ∧ ∀ q,
    (cells r ++ q).drop userChat.length = cells (r.drop 5) ++ q ∧
      ((cells r ++ q).drop userChat.length).drop 1 =
        cells (firstWord (r.drop 6)) ++ some b :: (cells (behindWord (r.drop 6)) ++ q) := by
  obtain ⟨b, hb, hmsg⟩ := exists_cells_firstWord_eq (exists_isSep_of_mem_behindWord h0)
  have hlen : 6 ≤ r.length := by
    by_contra hshort
    rw [List.drop_eq_nil_of_le (by omega)] at h0
    cases h0
  have hdrop : ∀ q : Block, ∀ n ≤ 6, (cells r ++ q).drop n = cells (r.drop n) ++ q := by
    intro q n hn
    rw [List.drop_append_of_le_length (by simp; omega), drop_cells]
  refine ⟨b, hb, fun q => ⟨hdrop q 5 (by omega), ?_⟩⟩
  rw [List.drop_drop]
  show (cells r ++ q).drop 6 = _
  rw [hdrop q 6 (Nat.le_refl 6), hmsg q]

/-- A line with a NUL behind the name and the character behind that is filed and, where there is a
NUL behind its frame, sent, whatever is behind `read_buf`. -/
theorem run_chat (hc : ∀ u ∈ c.users, 0 ∉ u.username)
    (hover : ¬Overread slack (firstWord (r.drop 6)) c.users)
    (h0 : 0 ∈ behindWord (r.drop 6)) (q : Block) :
    ∃ (u : UserStruct) (t t' : Bytes), cstr (cells (r.drop 5)) = .ok t' ∧
      (runCommand slack (cells r ++ q) .chat).run c =
        if slack (cells (msgTo ++ t' ++ ending)) = 0 then
          (.error (.fault .outOfBounds), { c.withUser (firstWord (r.drop 6)) with
            wrote := c.wrote ++ [(.pipe u.wrt, t)] })
        else (.ok .again, { c.withUser (firstWord (r.drop 6)) with
          wrote := c.wrote ++ [(.pipe u.wrt, t)] ++ [(.sock, msgTo ++ t' ++ ending)] }) := by
  obtain ⟨b, hb, hmsg⟩ := exists_chatMessage h0
  obtain ⟨t, ht⟩ := exists_cstr_cells h0
  obtain ⟨t', ht'⟩ := exists_cstr_cells (mem_drop_of_mem_behindWord h0)
  obtain ⟨u, -, hrun⟩ := run_processMsg_cells hc (isWord_firstWord (r.drop 6)) hb
    (cells (behindWord (r.drop 6)) ++ q) hover
  rw [cstr_append_of_ok ht q] at hrun
  refine ⟨u, t, t', ht', ?_⟩
  unfold runCommand
  dsimp only
  rw [(hmsg q).2, (hmsg q).1, Eff.run_bind_ok hrun, toFrame_of_cstr slack (cstr_append_of_ok ht' q)]
  split_ifs
  · rw [run_mem_error_bind]
  · rw [run_mem_ok_bind, run_write_bind]
    rfl

/-- A line whose name cannot be looked for is not filed. -/
theorem run_chat_of_overread (hc : ∀ u ∈ c.users, 0 ∉ u.username)
    (hover : Overread slack (firstWord (r.drop 6)) c.users)
    (h0 : 0 ∈ behindWord (r.drop 6)) (q : Block) :
    (runCommand slack (cells r ++ q) .chat).run c = (.error (.fault .outOfBounds), c) := by
  obtain ⟨b, hb, hmsg⟩ := exists_chatMessage h0
  unfold runCommand
  dsimp only
  rw [(hmsg q).2,
    Eff.run_bind_error (run_processMsg_of_fault hc (isWord_firstWord (r.drop 6)) hb _ hover)]

/-- Without such a NUL the text is read beyond `read_buf`, and nothing is sent. -/
theorem run_chat_error (slack : Slack) (hc : ∀ u ∈ c.users, 0 ∉ u.username)
    (h0 : 0 ∉ behindWord (r.drop 6)) :
    ∃ f c', (runCommand slack (cells r) .chat).run c = (.error (.fault f), c') ∧
      c'.wrote = c.wrote := by
  have hblk : ((cells r).drop userChat.length).drop 1 = cells (r.drop 6) := by
    rw [drop_cells, drop_cells, List.drop_drop]
    rfl
  suffices hmsg : ∃ f c', (processMsg slack (cells (r.drop 6))).run c = (.error (.fault f), c') ∧
      c'.wrote = c.wrote by
    obtain ⟨f, c', hrun, hwrote⟩ := hmsg
    refine ⟨f, c', ?_, hwrote⟩
    unfold runCommand
    dsimp only
    rw [hblk, Eff.run_bind_error hrun]
  by_cases hsep : ∃ b ∈ r.drop 6, IsSep b
  · obtain ⟨b, hb, hsplit⟩ := exists_cells_firstWord_eq hsep
    have hmsg := hsplit []
    rw [List.append_nil, List.append_nil] at hmsg
    rw [hmsg]
    by_cases hfault : Overread slack (firstWord (r.drop 6)) c.users
    · exact ⟨_, c, run_processMsg_of_fault hc (isWord_firstWord _) hb _ hfault, rfl⟩
    · obtain ⟨u, -, hrun⟩ := run_processMsg_cells hc (isWord_firstWord (r.drop 6)) hb
        (cells (behindWord (r.drop 6))) hfault
      rw [cstr_cells_of_notMem h0] at hrun
      exact ⟨_, _, hrun, c.wrote_withUser _⟩
  · have hword : wordLength (cells (r.drop 6)) = .error .outOfBounds :=
      wordLength_cells_outOfBounds fun b hb hbsep => hsep ⟨b, hb, hbsep⟩
    unfold processMsg
    rw [hword]
    exact ⟨_, c, rfl, rfl⟩

end Chat

/-! ## A line in any `read_buf` -/

section Line

variable (slack : Slack)

variable {r : Bytes}

/-- A line that does not begin with a slash is passed over. -/
theorem chatInput_cons_of_ne {a : UInt8} (ha : a ≠ 47) (p : Block) :
    chatInput slack (some a :: p) = pure .again := by
  have hslash : strncmpEq (some a :: p) [47] 1 = .ok false := if_neg ha
  rw [chatInput, hslash]
  rfl

/-- **A line with a separator** runs what its first word picks. -/
theorem chatInput_cells_append (hslash : r.head? = some 47) (hsep : ∃ c ∈ r, IsSep c) (q : Block) :
    chatInput slack (cells r ++ q) = runSelected slack (cells r ++ q) (picked r) := by
  obtain ⟨t, rfl⟩ := List.head?_eq_some_iff.mp hslash
  have hbegins : strncmpEq (cells (47 :: t) ++ q) [47] 1 = .ok true := strncmpEq_slash _
  rw [chatInput_of_slash slack hbegins, command_cells_of_sep hsep]
  rfl

/-- A line that does is searched for a command. -/
theorem chatInput_cells (hslash : r.head? = some 47) (hsep : ∃ c ∈ r, IsSep c) :
    chatInput slack (cells r) = runSelected slack (cells r) (picked r) := by
  have hline := chatInput_cells_append slack hslash hsep []
  rwa [List.append_nil] at hline

/-- A line that fills `read_buf` without a separator. -/
theorem chatInput_cells_outOfBounds (hslash : r.head? = some 47) (hsep : ¬∃ c ∈ r, IsSep c) :
    chatInput slack (cells r) = mem (.error .outOfBounds) := by
  obtain ⟨t, rfl⟩ := List.head?_eq_some_iff.mp hslash
  have hbegins : strncmpEq (cells (47 :: t)) [47] 1 = .ok true := strncmpEq_slash _
  rw [chatInput_of_slash slack hbegins, command_cells_outOfBounds fun c hc h => hsep ⟨c, hc, h⟩]
  rfl

end Line

/-! ## The reads that stay inside -/

/-- What is behind a block makes no difference to what is done with it: nothing is read there, as a
read behind a block is a fault only where nothing is. -/
def StaysInside {β : Type} (f : Block → β) (blk : Block) : Prop := ∀ q, f (blk ++ q) = f blk

/-- The lines that the commands find the ends of. -/
def LineEnds (r : Bytes) : Prop :=
  r.head? = some 47 → (∃ c ∈ r, IsSep c) ∧ (picked r = some .chat → 0 ∈ behindWord (r.drop 6))

instance (r : Bytes) : Decidable (LineEnds r) := inferInstanceAs (Decidable (_ → _ ∧ (_ → _)))

/-- `process_string` on a read from the server. -/
theorem staysInside_processString_iff (b : Bytes) :
    StaysInside processString (readBuf b) ↔ 0 ∈ b ∨ b.length < maxline := by
  constructor
  · intro h
    by_contra hno
    rw [not_or, Nat.not_lt] at hno
    have hfull : readBuf b = cells b := by
      rw [readBuf, Nat.sub_eq_zero_of_le hno.2, textBlock]
      exact List.append_nil _
    -- with a NUL behind it, the string is read, and then the null pointer
    have hrun := congrArg (fun m => (m.run ⟨none, 0⟩).1) (h [some 0])
    have hend : strlen (cells b ++ [some 0]) = .ok b.length := by
      rw [strlen, cstr_cells_append hno.1]
      rfl
    have hopen : strlen (cells b) = .error .outOfBounds := by
      rw [strlen, cstr_cells_of_notMem hno.1]
      rfl
    unfold processString at hrun
    rw [hfull, hend, hopen] at hrun
    cases hrun
  · intro hends q
    obtain ⟨t, ht⟩ : ∃ t, cstr (readBuf b) = .ok t := by
      rcases hends with h0 | hshort
      · obtain ⟨t, ht⟩ := exists_cstr_cells h0
        exact ⟨t, cstr_append_of_ok ht _⟩
      · obtain ⟨k, hk⟩ : ∃ k, maxline - b.length = k + 1 := ⟨maxline - b.length - 1, by omega⟩
        rw [readBuf, hk]
        exact ⟨_, cstr_textBlock_takeWhile b k⟩
    unfold processString strlen strcat
    rw [ht, cstr_append_of_ok ht q]

/-- The first word ends at a NUL at the latest. -/
theorem length_firstWord_append_zero_le (m s : Bytes) :
    (firstWord (m ++ 0 :: s)).length ≤ m.length := by
  unfold firstWord
  rw [List.takeWhile_append]
  split_ifs
  · simp [IsSep]
  · exact (List.takeWhile_prefix _).length_le

/-- Behind two NULs there is one behind the first word. -/
theorem zero_mem_behindWord (m : Bytes) : 0 ∈ behindWord (m ++ [0, 0]) := by
  have hlen := length_firstWord_append_zero_le m [0]
  unfold behindWord
  rw [List.drop_append]
  apply List.mem_append_right
  have hle : (firstWord (m ++ [0, 0])).length + 1 - m.length ≤ 1 := by omega
  rcases Nat.le_one_iff_eq_zero_or_eq_one.mp hle with h | h <;> simp [h]

theorem mem_ok_bind {σ α β : Type} (a : α) (k : α → Eff σ Halt β) : mem (.ok a) >>= k = k a := rfl

/-- Of a message `process_msg` uses the first word and the string behind that. -/
theorem processMsg_congr (slack : Slack) {p p' : Block} {n : ℕ} (hlen : wordLength p = .ok n)
    (hlen' : wordLength p' = .ok n)
    (hname : memcpy (zeros (n + 1)) p n = memcpy (zeros (n + 1)) p' n)
    (htext : cstr (p.drop (n + 1)) = cstr (p'.drop (n + 1))) :
    processMsg slack p = processMsg slack p' := by
  unfold processMsg
  rw [hlen, hlen', mem_ok_bind, mem_ok_bind, hname, htext]

/-- `/chat`, where the text behind the name has an end. -/
theorem staysInside_runCommand_chat {r : Bytes} (h0 : 0 ∈ behindWord (r.drop 6))
    (slack : Slack) (q : Block) :
    runCommand slack (cells r ++ q) .chat = runCommand slack (cells r) .chat := by
  obtain ⟨b, hb, hmsg⟩ := exists_chatMessage h0
  obtain ⟨t, ht⟩ := exists_cstr_cells h0
  obtain ⟨t', ht'⟩ := exists_cstr_cells (mem_drop_of_mem_behindWord h0)
  set w := firstWord (r.drop 6) with hw
  have hword : IsWord w := isWord_firstWord (r.drop 6)
  have htext : ∀ q : Block,
      cstr ((cells w ++ some b :: (cells (behindWord (r.drop 6)) ++ q)).drop (w.length + 1)) =
          .ok t := by
    intro q
    have hsplit : cells w ++ some b :: (cells (behindWord (r.drop 6)) ++ q) =
        (cells w ++ [some b]) ++ (cells (behindWord (r.drop 6)) ++ q) := by simp
    rw [hsplit, List.drop_left' (by simp), cstr_append_of_ok ht q]
  obtain ⟨hline, hblk⟩ := hmsg []
  rw [List.append_nil] at hline hblk
  have hprocess : processMsg slack (((cells r ++ q).drop userChat.length).drop 1) =
      processMsg slack (((cells r).drop userChat.length).drop 1) := by
    rw [(hmsg q).2, hblk]
    apply processMsg_congr slack (wordLength_cells hword hb _) (wordLength_cells hword hb _)
    · rw [memcpy_cells_word, memcpy_cells_word]
    · rw [htext q, htext []]
  have hframe : toFrame slack ((cells r ++ q).drop userChat.length) =
      toFrame slack ((cells r).drop userChat.length) := by
    rw [(hmsg q).1, hline, List.append_nil, toFrame_of_cstr slack (cstr_append_of_ok ht' q),
      toFrame_of_cstr slack ht']
  unfold runCommand
  dsimp only
  rw [hprocess, hframe]

/-- A line. -/
theorem staysInside_chatInput_iff {r : Bytes} (hlen : r.length = maxline) :
    (∀ slack, StaysInside (chatInput slack) (cells r)) ↔ LineEnds r := by
  constructor
  · intro h hslash
    have hsep : ∃ c ∈ r, IsSep c := by
      by_contra hno
      have hends := congrArg (fun m => (m.run .initial).1) (h noSlack [some 0])
      have hblk : cells r ++ [some 0] = cells (r ++ [0]) := by simp [cells]
      have hslash' : (r ++ [0]).head? = some 47 := by
        rw [List.head?_append, hslash]
        rfl
      have hword : firstWord (r ++ [0]) = r := by
        have hall : ∀ c ∈ r, (!decide (IsSep c)) = true :=
          fun c hc => by simpa using fun h => hno ⟨c, hc, h⟩
        unfold firstWord
        rw [List.takeWhile_append_of_pos hall,
          List.takeWhile_cons_of_neg (by decide), List.append_nil]
      have hnone : picked (r ++ [0]) = none := by
        apply UserCommand.pick_eq_none
        rw [hword, hlen]
      rw [hblk, chatInput_cells noSlack hslash' ⟨0, by simp, .inl rfl⟩, hnone,
        chatInput_cells_outOfBounds noSlack hslash hno] at hends
      cases hends
    refine ⟨hsep, fun hchat => ?_⟩
    by_contra h0
    have hends := congrArg (fun m => (m.run .initial).1) (h (fun _ => 1) [some 0, some 0])
    have hblk : cells r ++ [some 0, some 0] = cells (r ++ [0, 0]) ++ [] := by simp [cells]
    have hdrop : (r ++ [0, 0]).drop 6 = r.drop 6 ++ [0, 0] := by
      have hmax : 6 ≤ maxline := by decide
      exact List.drop_append_of_le_length (by omega)
    have hover : ¬Overread (fun _ => 1) (firstWord ((r ++ [0, 0]).drop 6)) Process.initial.users :=
      not_overread (fun _ => Nat.one_ne_zero) _ _
    obtain ⟨u, t, t', -, hok⟩ := run_chat (by simp [Process.initial]) hover
      (hdrop ▸ zero_mem_behindWord (r.drop 6)) []
    rw [if_neg Nat.one_ne_zero] at hok
    obtain ⟨f, c', herror, -⟩ :=
      run_chat_error (fun _ => 1) (c := .initial) (by simp [Process.initial]) h0
    rw [chatInput_cells_append (fun _ => 1) hslash hsep, chatInput_cells (fun _ => 1) hslash hsep,
      hchat, hblk] at hends
    dsimp only [runSelected] at hends
    rw [hok, herror] at hends
    cases hends
  · intro hends slack q
    by_cases hslash : r.head? = some 47
    · obtain ⟨hsep, hchat⟩ := hends hslash
      rw [chatInput_cells_append slack hslash hsep, chatInput_cells slack hslash hsep]
      cases hpick : picked r with
      | none => rfl
      | some c =>
          cases c with
          | help => rfl
          | listu => rfl
          | logout => rfl
          | chat => exact staysInside_runCommand_chat (hchat hpick) slack q
    · cases r with
      | nil => cases hlen
      | cons a t =>
          have ha : a ≠ 47 := fun h => hslash (congrArg some h)
          exact (chatInput_cons_of_ne slack ha _).trans (chatInput_cons_of_ne slack ha _).symm

/-- The frame of what a window has written. -/
theorem staysInside_childFrame_iff (r : Bytes) :
    (∀ slack username, StaysInside (childFrame slack username) (cells r)) ↔ 0 ∈ r := by
  constructor
  · intro h
    by_contra h0
    have hends := h (fun _ => 1) [] [some 0]
    have hopen : childFrame (fun _ => 1) [] (cells r) = .error .outOfBounds := by
      rw [childFrame, strlen, cstr_cells_of_notMem h0]
      rfl
    rw [hopen, childFrame_of_cstr (fun _ => 1) (by simp) (cstr_cells_append h0 []),
      if_pos (by simp)] at hends
    cases hends
  · intro h0 slack username q
    obtain ⟨t, ht⟩ := exists_cstr_cells h0
    have hlt : t.length ≤ (cells r).length := (length_lt_of_cstr ht).le
    have hlen : strlen (cells r) = .ok t.length := by
      rw [strlen, ht]
      rfl
    have hlen' : strlen (cells r ++ q) = .ok t.length := by
      rw [strlen, cstr_append_of_ok ht q]
      rfl
    unfold childFrame
    rw [hlen, hlen', ok_bind, ok_bind, List.take_append_of_le_length hlt]

/-- **What is read stays inside `read_buf`**: for a read from the server into the cleared buffer iff
there is a NUL in it or room for one; for a line iff its end is found where a command looks for it;
for what a window has written iff there is a NUL in it or behind it. -/
theorem staysInside_iff {held b : Bytes} {blk : Block} (hheld : held.length = maxline)
    (hfits : (ReadResult.data b).Fits) (hstore : store (cells held) 0 (cells b) = .ok blk) :
    (StaysInside processString (readBuf b) ↔ 0 ∈ b ∨ b.length < maxline) ∧
      ((∀ slack, StaysInside (chatInput slack) blk) ↔ LineEnds (laidOver b held)) ∧
      ((∀ slack username, StaysInside (childFrame slack username) blk) ↔ 0 ∈ laidOver b held) := by
  have hle : b.length ≤ held.length := hheld ▸ hfits.2
  rw [store_cells hle] at hstore
  obtain rfl := Except.ok.inj hstore
  have hlen : (laidOver b held).length = maxline := by
    rw [length_laidOver, max_eq_right hle, hheld]
  exact ⟨staysInside_processString_iff b, staysInside_chatInput_iff hlen,
    staysInside_childFrame_iff _⟩

/-- A line for `b`. -/
theorem staysInside_hi : StaysInside (chatInput fun _ => 1)
    (cells (laidOver (userChat ++ [32, 98, 32, 104, 10]) (List.replicate maxline 0))) := by
  have hle : (userChat ++ [32, 98, 32, 104, 10]).length ≤
      (List.replicate maxline (0 : UInt8)).length := by
    rw [List.length_replicate]
    decide
  apply (staysInside_iff List.length_replicate ⟨by decide, by decide⟩ (store_cells hle)).2.1.mpr
  decide

/-- A read that fills `read_buf` without a NUL goes on behind it; so does a line one byte shorter
whose name runs to its end. -/
theorem not_staysInside : ¬StaysInside processString (readBuf (List.replicate maxline 97)) ∧
    (¬∀ slack, StaysInside (chatInput slack)
      (readBuf (userChat ++ 32 :: List.replicate (maxline - 7) 97))) ∧
    ¬∀ slack username, StaysInside (childFrame slack username)
    (cells (List.replicate maxline 97)) := by
  refine ⟨?_, ?_, ?_⟩
  · rw [staysInside_processString_iff, not_or]
    exact ⟨by simp, by simp⟩
  · have hlen : (userChat ++ 32 :: List.replicate (maxline - 7) 97).length = maxline - 1 := by
      rw [List.length_append, List.length_cons, List.length_replicate]
      decide
    have hone : maxline - (maxline - 1) = 1 := by decide
    rw [readBuf_eq_cells, hlen, hone, staysInside_chatInput_iff (by simp; decide)]
    intro hends
    have hmem := (hends rfl).2 (by decide)
    -- the name ends in the last byte, and nothing is behind that
    have hdrop : ((userChat ++ 32 :: List.replicate (maxline - 7) 97) ++
      List.replicate 1 0).drop 6 =
        List.replicate (maxline - 7) 97 ++ [0] := rfl
    have hword : firstWord (List.replicate (maxline - 7) 97 ++ [0]) =
        List.replicate (maxline - 7) 97 := by
      unfold firstWord
      rw [List.takeWhile_append_of_pos (by simp [IsSep]), List.takeWhile_cons_of_neg (by decide),
        List.append_nil]
    have hnil : behindWord (List.replicate (maxline - 7) 97 ++ [0]) = [] := by
      unfold behindWord
      rw [hword]
      simp
    rw [hdrop, hnil] at hmem
    cases hmem
  · rw [staysInside_childFrame_iff]
    simp

end ME2U.Client
