import ME2U.Hw1Client.Chat

/-!
# What `hw1_client` does with frames and lines

Where `read` returns a frame of the server, or a line of the user, `regular_chat` does one thing for
each kind: it prints, and it sends at most one frame. A message is printed from behind the verb,
with its ending, and answered with the name alone.

* `bytesOf`: the bytes of a `write`.
* `run_chatIteration_from`, `run_chatIteration_ot`, `run_chatIteration_edne`,
  `run_chatIteration_utsil`: the frames.
* `run_chatIteration_chat`, `run_chatIteration_listu`, `run_chatIteration_help`,
  `run_chatIteration_words`: the lines.
-/

namespace ME2U.Hw1Client

open Client (Halt ReadResult ending length_ending mem run_mem_ok_bind
  run_mem_error_bind helpString toFrame userHelp userListu userChat userLogout msgTo)

/-! ## Frames -/

/-- The bytes that `write` was given for the socket. -/
def bytesOf (x : Block × ℕ) : Bytes := (x.1.take x.2).filterMap id

theorem bytesOf_textBlock (s : Bytes) (k : ℕ) : bytesOf (textBlock s k, s.length) = s := by
  have htake : (textBlock s k).take s.length = cells s := List.take_left' (length_cells s)
  unfold bytesOf
  rw [htake]
  simp [cells, List.filterMap_map]

/-- The line for a message that got through. -/
def sentText : Bytes := 27 :: encode (String.toList "[1;33m MSG sent successfully.\x1b[0m\n")

/-- The beginning of the line for a message to nobody. -/
def noUserText : Bytes := encode (String.toList "No, user = ")

/-- The end of that line. -/
def existsText : Bytes := encode (String.toList " exists.\n")

/-- The line for what is no command. -/
def formatText : Bytes :=
  encode (String.toList "You did not use the right format! Type /help to see suggestions\n")

set_option maxRecDepth 4000 in
/-- The help begins with a line break. -/
theorem exists_helpString : ∃ s, helpString = encode ('\n' :: s) :=
  ⟨_, congrArg encode String.toList_ofList⟩

/-- The separator is in no token. -/
theorem notMem_of_mem_strtokFrom {sep : UInt8} {tok : Bytes} (htok : sep ∉ tok) {s w : Bytes}
    (h : w ∈ strtokFrom sep tok s) : sep ∉ w := by
  induction s generalizing tok with
  | nil =>
      rw [strtokFrom] at h
      split at h
      · cases h
      · rwa [List.mem_singleton.mp h]
  | cons b s ih =>
      rw [strtokFrom] at h
      split at h
      · split at h
        · exact ih List.not_mem_nil h
        · rcases List.mem_cons.mp h with rfl | h
          · exact htok
          · exact ih List.not_mem_nil h
      · next hb =>
          refine ih ?_ h
          rw [List.mem_append, List.mem_singleton]
          rintro (hmem | rfl)
          · exact htok hmem
          · exact hb rfl

section Frames

variable {slack : ℕ} (hslack : slack ≠ 0) (c : Chat)

/-- The first token of a text that begins with one. -/
theorem head?_strtok {w : Bytes} (hw : w ≠ []) (hspace : 32 ∉ w) (t : Bytes) :
    (strtok 32 (w ++ 32 :: t)).head? = some w := by
  unfold strtok
  rw [strtokFrom_append hspace, List.nil_append, strtokFrom, if_pos rfl, if_neg hw]
  rfl

/-- Text is appended to a block with room for it. -/
theorem copyBehind_textBlock {s : Bytes} (hs : 0 ∉ s) {n : ℕ} (t : Bytes) (hn : n ≠ 0)
    (hroom : t.length ≤ n) :
    copyBehind (textBlock s n) t = .ok (textBlock (s ++ t) (n - t.length)) := by
  unfold copyBehind
  rw [append_textBlock hs, if_pos ⟨hn, hroom⟩]

/-- A text at the beginning of a new block. -/
theorem store_calloc (s : Bytes) (n : ℕ) :
    store (calloc (s.length + n)) 0 (cells s) = .ok (textBlock s n) := by
  have hzeros : calloc (s.length + n) = [] ++ (zeros s.length ++ zeros n) := by
    rw [calloc, List.nil_append, ← zeros_add]
  rw [hzeros]
  exact store_append rfl (by simp)

/-- A write before `shutdown`. -/
theorem run_send (p : Block) (n : ℕ) (hopen : c.stdineof = false) :
    (send p n).run c = (.ok (), { c with sent := c.sent ++ [(p, n)] }) := by
  unfold send
  rw [Eff.run_get_bind, if_neg (Bool.eq_false_iff.mp hopen)]
  rfl

include hslack in
/-- The reply is built in its block, and sent. -/
theorem run_sendReply {w : Bytes} (hw0 : 0 ∉ w) :
    ∃ x : Block × ℕ, bytesOf x = confirmMsgFrom ++ 32 :: (w ++ ending) ∧
    (do
      let msgToSent ← mem (store (calloc (confirmMsgFrom.length + w.length + 5 + slack))
        0 (cells confirmMsgFrom))
      let msgToSent ← mem (copyBehind msgToSent [32])
      let msgToSent ← mem (copyBehind msgToSent w)
      let msgToSent ← mem (copyBehind msgToSent ending)
      let n ← mem (strlen msgToSent)
      send msgToSent n : ChatM Unit).run c = (send x.1 x.2).run c := by
  have hsize : confirmMsgFrom.length + w.length + 5 + slack = confirmMsgFrom.length +
      (w.length + 5 + slack) := by
    omega
  have hspaced : 0 ∉ confirmMsgFrom ++ [32] := by decide
  have hnamed : 0 ∉ confirmMsgFrom ++ [32] ++ w := List.not_mem_append hspaced hw0
  have h₁ : copyBehind (textBlock confirmMsgFrom (w.length + 5 + slack)) [32] =
      .ok (textBlock (confirmMsgFrom ++ [32]) (w.length + 4 + slack)) := by
    rw [copyBehind_textBlock (by decide) _ (by omega) (by simp; omega)]
    congr 2
    simp
  have h₂ : copyBehind (textBlock (confirmMsgFrom ++ [32]) (w.length + 4 + slack)) w =
      .ok (textBlock (confirmMsgFrom ++ [32] ++ w) (4 + slack)) := by
    rw [copyBehind_textBlock hspaced _ (by omega) (by omega)]
    congr 2
    omega
  have h₃ : copyBehind (textBlock (confirmMsgFrom ++ [32] ++ w) (4 + slack)) ending =
      .ok (textBlock (confirmMsgFrom ++ [32] ++ w ++ ending) slack) := by
    rw [copyBehind_textBlock hnamed _ (by omega) (by rw [length_ending]; omega)]
    congr 2
    rw [length_ending]
    omega
  have hreply : 0 ∉ confirmMsgFrom ++ [32] ++ w ++ ending := List.not_mem_append hnamed (by decide)
  refine ⟨(textBlock (confirmMsgFrom ++ [32] ++ w ++ ending) slack,
    (confirmMsgFrom ++ [32] ++ w ++ ending).length), ?_, ?_⟩
  · rw [bytesOf_textBlock]
    simp
  · rw [hsize, store_calloc, run_mem_ok_bind, h₁, run_mem_ok_bind, h₂, run_mem_ok_bind,
      h₃, run_mem_ok_bind, strlen_textBlock hreply hslack, run_mem_ok_bind]

variable (hopen : c.stdineof = false)

include hslack hopen in
/-- The reply to a message. -/
theorem run_fromUser {w t : Bytes} (hw : w ≠ []) (hspace : 32 ∉ w)
    (h0 : 0 ∉ msgFrom ++ 32 :: (w ++ 32 :: t))
    {k : ℕ} (hk : k ≠ 0) : ∃ x, bytesOf x = confirmMsgFrom ++ 32 :: (w ++ ending) ∧
      (fromUser slack (textBlock (msgFrom ++ 32 :: (w ++ 32 :: t)) k)).run c =
        (.ok (), { c with sent := c.sent ++ [x], printed := c.printed ++ [.text
          (32 :: (w ++ 32 :: t))] }) := by
  have htail : 0 ∉ w ++ 32 :: t := fun h => h0 (List.mem_append_right _ (List.mem_cons_of_mem _ h))
  have hw0 : 0 ∉ w := fun h => htail (List.mem_append_left _ h)
  have hdrop₁ : (textBlock (msgFrom ++ 32 :: (w ++ 32 :: t)) slack).drop (msgFrom.length + 1) =
      textBlock (w ++ 32 :: t) slack := by
    rw [← List.drop_drop, drop_textBlock]
    rfl
  have hdrop₂ : (textBlock (msgFrom ++ 32 :: (w ++ 32 :: t)) k).drop msgFrom.length =
      textBlock (32 :: (w ++ 32 :: t)) k := drop_textBlock _ _ _
  have hfree₂ : 0 ∉ 32 :: (w ++ 32 :: t) := fun h => by
    rcases List.mem_cons.mp h with h | h
    · cases h
    · exact htail h
  obtain ⟨x, hx, hreply⟩ := run_sendReply hslack
    { c with printed := c.printed ++ [.text (32 :: (w ++ 32 :: t))] } hw0
  refine ⟨x, hx, ?_⟩
  unfold fromUser
  rw [strlen_textBlock h0 hk, run_mem_ok_bind, memcpy_room, run_mem_ok_bind, hdrop₁,
    cstr_textBlock htail hslack, run_mem_ok_bind, hdrop₂, cstr_textBlock hfree₂ hk, run_mem_ok_bind,
    Eff.run_bind_ok (run_output _ c), head?_strtok hw hspace]
  exact hreply.trans (run_send _ x.1 x.2 hopen)

variable (inputReady : Bool) (line : ReadResult)

/-- A frame of at most a read is in `buf` as a text. -/
theorem run_chatIteration_data (slack : ℕ) {b : Bytes} (hlen : b.length < maxline) :
    ∃ k ≠ 0, (chatIteration slack true inputReady (.data b) line).run c =
      (serverChunk slack (textBlock b k)).run c :=
  ⟨maxline - b.length, by omega, rfl⟩

include hslack hopen in
/-- **A message** is printed from behind the verb, and answered with the name. -/
theorem run_chatIteration_from {w t : Bytes} (hw : w ≠ []) (hspace : 32 ∉ w)
    (h0 : 0 ∉ msgFrom ++ 32 :: (w ++ 32 :: t))
    (hlen : (msgFrom ++ 32 :: (w ++ 32 :: t)).length < maxline) :
    ∃ x, bytesOf x = confirmMsgFrom ++ 32 :: (w ++ ending) ∧
      (chatIteration slack true inputReady (.data (msgFrom ++ 32 :: (w ++ 32 :: t))) line).run c =
        (.ok false, { c with sent := c.sent ++ [x], printed := c.printed ++ [.text
          (32 :: (w ++ 32 :: t))] }) := by
  obtain ⟨k, hk, hrun⟩ := run_chatIteration_data c inputReady line slack hlen
  obtain ⟨x, hx, hfrom⟩ := run_fromUser hslack c hopen hw hspace h0 hk
  have hothers : ∀ v ∈ [[13, 10], ending, serverListUser, confirmMsgTo],
      startsWith (textBlock (msgFrom ++ 32 :: (w ++ 32 :: t)) k) v = .ok false :=
    startsWith_others h0 hk (by decide)
  simp only [List.forall_mem_cons] at hothers
  obtain ⟨hcrlf, hending, hutsil, hot, -⟩ := hothers
  refine ⟨x, hx, ?_⟩
  rw [hrun]
  unfold serverChunk
  rw [strlen_textBlock h0 hk, run_mem_ok_bind, if_neg (by simp), hcrlf, run_mem_ok_bind]
  simp only [Bool.false_eq_true, if_false, hending, hutsil, hot,
    startsWith_verb h0 hk, run_mem_ok_bind, if_true]
  rw [Eff.run_bind_ok hfrom]
  rfl

/-- **A confirmation** is a line on the terminal. -/
theorem run_chatIteration_ot {t : Bytes} (h0 : 0 ∉ confirmMsgTo ++ t)
    (hlen : (confirmMsgTo ++ t).length < maxline) :
    (chatIteration slack true inputReady (.data (confirmMsgTo ++ t)) line).run c =
      (.ok false, { c with printed := c.printed ++ [.text sentText] }) := by
  obtain ⟨k, hk, hrun⟩ := run_chatIteration_data c inputReady line slack hlen
  have hothers : ∀ v ∈ [[13, 10], ending, serverListUser],
      startsWith (textBlock (confirmMsgTo ++ t) k) v = .ok false :=
    startsWith_others h0 hk (by decide)
  simp only [List.forall_mem_cons] at hothers
  obtain ⟨hcrlf, hending, hutsil, -⟩ := hothers
  have hne : (confirmMsgTo ++ t).length ≠ 0 := by
    rw [List.length_append]
    exact Nat.ne_of_gt (Nat.add_pos_left (by decide) _)
  rw [hrun]
  unfold serverChunk
  rw [strlen_textBlock h0 hk, run_mem_ok_bind, if_neg hne, hcrlf, run_mem_ok_bind]
  simp only [Bool.false_eq_true, if_false, hending, hutsil, startsWith_verb h0 hk,
    run_mem_ok_bind, if_true]
  rfl

/-- **An `EDNE`** is three parts of a line. -/
theorem run_chatIteration_edne {t : Bytes} (h0 : 0 ∉ noUsr ++ t)
    (hlen : (noUsr ++ t).length < maxline) :
    ∃ p n, (chatIteration slack true inputReady (.data (noUsr ++ t)) line).run c =
      (.ok false, { c with printed := c.printed ++ [.text noUserText, .bytes p n,
        .text existsText] }) := by
  obtain ⟨k, hk, hrun⟩ := run_chatIteration_data c inputReady line slack hlen
  exact ⟨_, _, hrun.trans (run_serverChunk_edne h0 hk c)⟩

/-- The tokens are printed in their order. -/
theorem run_outputLines (tokens : List Bytes) (c : Chat) : (outputLines tokens).run c =
    (.ok (), { c with printed := c.printed ++ tokens.flatMap fun w => [.text w, .text [10]] }) := by
  induction tokens generalizing c with
  | nil => simp [outputLines]
  | cons w tokens ih =>
      unfold outputLines
      rw [Eff.run_bind_ok (run_output _ c), Eff.run_bind_ok (run_output _ _), ih]
      simp

/-- **A list of users** is printed by its tokens. -/
theorem run_chatIteration_utsil {t : Bytes} (h0 : 0 ∉ serverListUser ++ t)
    (hlen : (serverListUser ++ t).length < maxline) :
    (chatIteration slack true inputReady (.data (serverListUser ++ t)) line).run c =
      (.ok false, { c with printed := c.printed ++ (strtok 32 t).flatMap fun w => [.text w,
        .text [10]] }) := by
  obtain ⟨k, hk, hrun⟩ := run_chatIteration_data c inputReady line slack hlen
  have hothers : ∀ v ∈ [[13, 10], ending],
      startsWith (textBlock (serverListUser ++ t) k) v = .ok false :=
    startsWith_others h0 hk (by decide)
  simp only [List.forall_mem_cons] at hothers
  obtain ⟨hcrlf, hending, -⟩ := hothers
  have hne : (serverListUser ++ t).length ≠ 0 := by
    rw [List.length_append]
    exact Nat.ne_of_gt (Nat.add_pos_left (by decide) _)
  have ht : 0 ∉ t := fun h => h0 (List.mem_append_right _ h)
  rw [hrun]
  unfold serverChunk
  rw [strlen_textBlock h0 hk, run_mem_ok_bind, if_neg hne, hcrlf, run_mem_ok_bind]
  simp only [Bool.false_eq_true, if_false, hending, startsWith_verb h0 hk, run_mem_ok_bind, if_true]
  rw [drop_textBlock, cstr_textBlock ht hk, run_mem_ok_bind, Eff.run_bind_ok (run_outputLines _ c)]
  rfl

end Frames

/-! ## Lines -/

section Lines

variable {slack : ℕ} (c : Chat) (r : ReadResult)

/-- A line of at most a read is in `buf` as a text. -/
theorem run_chatIteration_line (slack : ℕ) {b : Bytes} (hlen : b.length < maxline) : ∃ k ≠ 0, ∀ out,
    (inputChunk slack (textBlock b k)).run c = (.ok (), out) →
      (chatIteration slack false true r (.data b)).run c = (.ok false, out) := by
  refine ⟨maxline - b.length, by omega, fun out hrun => ?_⟩
  exact Eff.run_bind_ok hrun _

/-- The tests up to that of a command. -/
theorem run_inputChunk_of_slash (slack : ℕ) {b : Bytes} (hslash : [47] <+: b) (h0 : 0 ∉ b)
    {k : ℕ} (hk : k ≠ 0) :
    inputChunk slack (textBlock b k) = (do
      let help ← mem (startsWith (textBlock b k) userHelp)
      if help then output (.text helpString)
      else do
      let listu ← mem (startsWith (textBlock b k) userListu)
      if listu then do
        let p ← mem (setStringEnding slack (textBlock clientListUser 1))
        send p (clientListUser.length + 4)
      else do
      let chat ← mem (startsWith (textBlock b k) userChat)
      if chat then do
        let newStr ← mem (toFrame (fun _ => slack) ((textBlock b k).drop userChat.length))
        send (textBlock newStr 1) newStr.length
      else do
      let logout ← mem (startsWith (textBlock b k) userLogout)
      if logout then do
        let p ← mem (setStringEnding slack (textBlock clientBye 1))
        send p (clientBye.length + 4)
        shutInput
      else do
        shutInput
        Eff.stop (.error "Client sent msg that cannot be understood")) := by
  have hlen : b.length ≠ 0 := by
    have hle := hslash.length_le
    rw [List.length_singleton] at hle
    omega
  have htest : strncmpEq (textBlock b k) [47] 1 = .ok true := by
    obtain ⟨j, rfl⟩ := Nat.exists_eq_succ_of_ne_zero hk
    have hcmp : strncmpEq (textBlock b (j + 1)) [47] 1 = .ok (decide ([47] <+: b)) :=
      strncmpEq_textBlock (by decide) j
    rwa [decide_eq_true hslash] at hcmp
  unfold inputChunk
  rw [strlen_textBlock h0 hk]
  show (if b.length = 0 then pure () else _ : ChatM Unit) = _
  rw [if_neg hlen, htest]
  rfl

/-- **A `/chat`** sends what is behind the command. -/
theorem run_chatIteration_chat (hslack : slack ≠ 0) (hopen : c.stdineof = false)
    {t : Bytes} (ht : 0 ∉ t) (hlen : (userChat ++ t).length < maxline) :
    ∃ x, bytesOf x = msgTo ++ t ++ ending ∧
      (chatIteration slack false true r (.data (userChat ++ t))).run c =
        (.ok false, { c with sent := c.sent ++ [x] }) := by
  obtain ⟨k, hk, hrun⟩ := run_chatIteration_line c r slack hlen
  have h0 : 0 ∉ userChat ++ t := List.not_mem_append (by decide) ht
  have hothers : ∀ v ∈ [userHelp, userListu],
      startsWith (textBlock (userChat ++ t) k) v = .ok false :=
    startsWith_others h0 hk (by decide)
  simp only [List.forall_mem_cons] at hothers
  obtain ⟨hhelp, hlistu, -⟩ := hothers
  have hframe : toFrame (fun _ => slack) ((textBlock (userChat ++ t) k).drop userChat.length) =
      .ok (msgTo ++ t ++ ending) := by
    rw [drop_textBlock, Client.toFrame_eq _ ht hk, if_neg hslack]
  refine ⟨(textBlock (msgTo ++ t ++ ending) 1, (msgTo ++ t ++ ending).length),
    bytesOf_textBlock _ _, hrun _ ?_⟩
  have hslash : [47] <+: userChat ++ t :=
    (show [47] <+: userChat by decide).trans (List.prefix_append _ t)
  rw [run_inputChunk_of_slash slack hslash h0 hk]
  simp only [hhelp, hlistu, startsWith_verb h0 hk, run_mem_ok_bind, Bool.false_eq_true,
    if_false, if_true, hframe]
  exact run_send c _ _ hopen

/-- A request without arguments, where its block has room for the ending. -/
theorem setStringEnding_textBlock (hslack : 4 ≤ slack) {str : Bytes} (h0 : 0 ∉ str)
    {k : ℕ} (hk : k ≠ 0) :
    setStringEnding slack (textBlock str k) = .ok (textBlock (str ++ ending) (slack - 4)) := by
  obtain ⟨j, rfl⟩ := Nat.exists_eq_add_of_le hslack
  have hstore : store (textBlock str (4 + j)) str.length (cells ending) =
      .ok (textBlock (str ++ ending) j) := by
    rw [textBlock, zeros_add, store_append (length_cells _).symm (by simp [length_ending]),
      textBlock, cells_append, List.append_assoc]
  unfold setStringEnding
  rw [strlen_textBlock h0 hk]
  simp only [bind, Except.bind, memcpy_room, hstore]
  rw [Nat.add_sub_cancel_left]

/-- **A `/listu`** sends the request, where the block has room for its ending. -/
theorem run_chatIteration_listu (hslack : 4 ≤ slack) (hopen : c.stdineof = false)
    {t : Bytes} (ht : 0 ∉ t) (hlen : (userListu ++ t).length < maxline) :
    ∃ x, bytesOf x = clientListUser ++ ending ∧
      (chatIteration slack false true r (.data (userListu ++ t))).run c =
        (.ok false, { c with sent := c.sent ++ [x] }) := by
  obtain ⟨k, hk, hrun⟩ := run_chatIteration_line c r slack hlen
  have h0 : 0 ∉ userListu ++ t := List.not_mem_append (by decide) ht
  have hothers : ∀ v ∈ [userHelp], startsWith (textBlock (userListu ++ t) k) v = .ok false :=
    startsWith_others h0 hk (by decide)
  simp only [List.forall_mem_cons] at hothers
  obtain ⟨hhelp, -⟩ := hothers
  have hframe :=
    setStringEnding_textBlock hslack (show 0 ∉ clientListUser by decide) Nat.one_ne_zero
  refine ⟨(textBlock (clientListUser ++ ending) (slack - 4), (clientListUser ++ ending).length),
    bytesOf_textBlock _ _, hrun _ ?_⟩
  have hslash : [47] <+: userListu ++ t :=
    (show [47] <+: userListu by decide).trans (List.prefix_append _ t)
  rw [run_inputChunk_of_slash slack hslash h0 hk]
  simp only [hhelp, startsWith_verb h0 hk, run_mem_ok_bind, Bool.false_eq_true,
    if_false, if_true, hframe]
  exact run_send c _ _ hopen

/-- **A `/help`** sends nothing. -/
theorem run_chatIteration_help {t : Bytes} (ht : 0 ∉ t) (hlen : (userHelp ++ t).length < maxline) :
    (chatIteration slack false true r (.data (userHelp ++ t))).run c =
      (.ok false, { c with printed := c.printed ++ [.text helpString] }) := by
  obtain ⟨k, hk, hrun⟩ := run_chatIteration_line c r slack hlen
  have h0 : 0 ∉ userHelp ++ t := List.not_mem_append (by decide) ht
  apply hrun
  have hslash : [47] <+: userHelp ++ t :=
    (show [47] <+: userHelp by decide).trans (List.prefix_append _ t)
  rw [run_inputChunk_of_slash slack hslash h0 hk]
  simp only [startsWith_verb h0 hk, run_mem_ok_bind, if_true]
  exact run_output _ c

/-- **A line without a slash** is an error that is printed. -/
theorem run_chatIteration_words {a : UInt8} {t : Bytes} (ha : a ≠ 47) (h0 : 0 ∉ a :: t)
    (hlen : (a :: t).length < maxline) :
    (chatIteration slack false true r (.data (a :: t))).run c = (.ok false,
      { c with printed := c.printed ++ [.text cErrors, .text formatText, .text cDefault] }) := by
  obtain ⟨k, hk, hrun⟩ := run_chatIteration_line c r slack hlen
  refine hrun _ ?_
  have hslash : strncmpEq (textBlock (a :: t) k) [47] 1 = .ok false := by
    obtain ⟨j, rfl⟩ := Nat.exists_eq_succ_of_ne_zero hk
    have hno : ¬[47] <+: a :: t := fun h => ha (List.cons_prefix_cons.mp h).1.symm
    have hcmp : strncmpEq (textBlock (a :: t) (j + 1)) [47] 1 = .ok (decide ([47] <+: a :: t)) :=
      strncmpEq_textBlock (by decide) j
    rwa [decide_eq_false hno] at hcmp
  unfold inputChunk
  rw [strlen_textBlock h0 hk, run_mem_ok_bind, if_neg (by simp), hslash,
    run_mem_ok_bind, if_pos (by decide)]
  unfold outputError
  rw [Eff.run_bind_ok (run_output _ c), Eff.run_bind_ok (run_output _ _), run_output]
  simp [formatText]

end Lines

end ME2U.Hw1Client
