import ME2U.Client.Frames

/-!
# What the client does with a line that is typed

The input side of `regular_chat`: a line is read into `read_buf`, and its first word selects a
command. `/chat` files the message in the window of the receiver and sends a `TO` frame, in a block
that it fills up to the last byte; `strlen` then reads on behind the block. The requests without
arguments are built in blocks that have no room for the ending: it is copied behind them, into what
the allocator has left there.

* `setStringEnding_bind_cstr`: a request without arguments is sent where there are five bytes left.
* `toFrame_eq`: the frame sent is `TO`, the line behind `/chat` and the ending.
* `run_chatInput_chat`: a message typed is filed and sent.
-/

namespace ME2U.Client

/-- Source: `client.h` (lines 26–57) -/
def userHelp : Bytes := encode ['/', 'h', 'e', 'l', 'p']
@[inherit_doc userHelp] def userLogout : Bytes := encode ['/', 'l', 'o', 'g', 'o', 'u', 't']
@[inherit_doc userHelp] def userListu : Bytes := encode ['/', 'l', 'i', 's', 't', 'u']
@[inherit_doc userHelp] def userChat : Bytes := encode ['/', 'c', 'h', 'a', 't']
@[inherit_doc userHelp] def msgTo : Bytes := encode Verb.toUser
@[inherit_doc userHelp] def clientListUser : Bytes := encode Verb.listu
@[inherit_doc userHelp] def clientBye : Bytes := encode Verb.bye

/-- Source: `client.c` `print_client_help` (lines 382–386) -/
def helpString : Bytes := encode (String.toList
  "\n\x1b[1;34m You can say the following commands
    /help               To see this help menu
    /logout             To logout of the chat. This also closes all windows
    /listu              Request a list of logged in users
    /chat <to> <msg>    requires username of logged in user, and the msg you want to send\x1b[0m\n")

/-- The ending is copied behind the block that was asked for.
Source: `client.c` `set_string_ending` (lines 373–379) -/
def setStringEnding (slack : Slack) (str : Bytes) : Except Fault Block := do
  let oldSize := str.length
  let toRet ← memcpy (calloc (oldSize + slack (cells str))) (textBlock str 1) oldSize
  store toRet oldSize (cells ending)

section Input

variable (slack : Slack)

/-- The `TO` frame of a line, of which `newBuf` is what is behind the command.
Source: `client.c` `regular_chat` (lines 288–297) -/
def toFrame (newBuf : Block) : Except Fault Bytes := do
  let n ← strlen newBuf
  let newStr ← memcpy (calloc (msgTo.length + n + 4)) (textBlock msgTo 1) msgTo.length
  let i ← strlen newStr
  let newStr ← store newStr i (newBuf.take n)
  let i ← strlen newStr
  let newStr ← store newStr i (cells ending)
  -- the block has no NUL now
  cstr (newStr ++ zeros (slack newStr))

/-- What is done with a line in `read_buf`. Behind `/logout` the socket is shut down; behind a line
that is not understood as well, but the client exits there.
Source: `client.c` `regular_chat` (lines 271–314) -/
def chatInput (readBuf : Block) : Chat Next := do
  let isCommand ← mem (strncmpEq readBuf [47] 1)
  if ¬isCommand then pure .again
  else do
  let firstWdL ← mem (wordLength readBuf)
  let is (command : Bytes) : Chat Bool := mem (strncmpEq readBuf command firstWdL)
  let help ← is userHelp
  if help then do
    write .stdout helpString
    pure .again
  else do
  let listu ← is userListu
  if listu then do
    let temp ← mem (setStringEnding slack clientListUser)
    let s ← mem (cstr temp)
    write .sock s
    pure .again
  else do
  let chat ← is userChat
  if chat then do
    let newBuf := readBuf.drop userChat.length
    processMsg slack (newBuf.drop 1)
    let newStr ← mem (toFrame slack newBuf)
    write .sock newStr
    pure .again
  else do
  let logout ← is userLogout
  if logout then do
    let temp ← mem (setStringEnding slack clientBye)
    let s ← mem (cstr temp)
    write .sock s
    pure .shut
  else Eff.stop (.error "Client sent msg that cannot be understood")

end Input

/-! ## The frames sent -/

/-- A request without arguments, with its ending where there are four bytes for it. -/
theorem setStringEnding_eq (slack : Slack) (str : Bytes) :
    setStringEnding slack str =
      if 4 ≤ slack (cells str) then .ok (textBlock (str ++ ending) (slack (cells str) - 4))
      else .error .outOfBounds := by
  have hcopy : memcpy (calloc (str.length + slack (cells str))) (textBlock str 1) str.length =
      .ok (textBlock str (slack (cells str))) := by
    rw [textBlock, memcpy_calloc rfl (Nat.le_add_right _ _), Nat.add_sub_cancel_left]
  unfold setStringEnding
  simp only [hcopy, bind, Except.bind]
  by_cases hroom : 4 ≤ slack (cells str)
  · obtain ⟨k, hk⟩ := Nat.exists_eq_add_of_le hroom
    have hfits : (cells ending).length = (zeros 4).length := rfl
    rw [if_pos hroom, hk, Nat.add_sub_cancel_left, textBlock, zeros_add,
      store_append (length_cells str).symm hfits, textBlock, cells_append, List.append_assoc]
  · rw [if_neg hroom]
    apply store_outOfBounds
    rw [length_textBlock, length_cells, length_ending]
    omega

/-- **A request without arguments** is read to its end where five bytes are left behind its
block. -/
theorem setStringEnding_bind_cstr (slack : Slack) {str : Bytes} (h0 : 0 ∉ str) :
    setStringEnding slack str >>= cstr =
      if 5 ≤ slack (cells str) then .ok (str ++ ending) else .error .outOfBounds := by
  have hfree : 0 ∉ str ++ ending := zero_notMem_frame h0
  rw [setStringEnding_eq]
  by_cases hroom : 4 ≤ slack (cells str)
  · rw [if_pos hroom, ok_bind, cstr_textBlock_eq hfree]
    have hiff : slack (cells str) - 4 ≠ 0 ↔ 5 ≤ slack (cells str) := by omega
    simp only [hiff]
  · rw [if_neg hroom, if_neg (by omega)]
    rfl

/-- What is sent of a request without arguments. -/
theorem eq_of_setStringEnding {slack : Slack} {str s : Bytes} {temp : Block} (h0 : 0 ∉ str)
    (htemp : setStringEnding slack str = .ok temp) (hs : cstr temp = .ok s) :
    s = str ++ ending := by
  have hbind := setStringEnding_bind_cstr slack h0
  rw [htemp, ok_bind, hs] at hbind
  split_ifs at hbind
  exact Except.ok.inj hbind

/-- **The `TO` frame**: `TO`, what is behind the command, and the ending, where a NUL is found
behind the block. -/
theorem toFrame_of_cstr (slack : Slack) {newBuf : Block} {t : Bytes} (h : cstr newBuf = .ok t) :
    toFrame slack newBuf =
      if slack (cells (msgTo ++ t ++ ending)) = 0 then .error .outOfBounds
      else .ok (msgTo ++ t ++ ending) := by
  obtain ⟨ht, rest, rfl⟩ := exists_of_cstr h
  have hn : strlen (cells t ++ some 0 :: rest) = .ok t.length := by
    rw [strlen, h]
    rfl
  have htake : (cells t ++ some 0 :: rest).take t.length = cells t :=
    List.take_left' (length_cells t)
  have h₁ : memcpy (calloc (msgTo.length + t.length + 4)) (textBlock msgTo 1) msgTo.length =
      .ok (textBlock msgTo (t.length + 4)) := by
    have hsub : msgTo.length + t.length + 4 - msgTo.length = t.length + 4 := by omega
    rw [textBlock, memcpy_calloc rfl (by omega), hsub]
  have h₂ : store (textBlock msgTo (t.length + 4)) msgTo.length (cells t) =
      .ok (textBlock (msgTo ++ t) 4) := by
    rw [textBlock, zeros_add, store_append (length_cells msgTo).symm (by simp),
      textBlock, cells_append, List.append_assoc]
  have h₃ : store (textBlock (msgTo ++ t) 4) (msgTo ++ t).length (cells ending) =
      .ok (cells (msgTo ++ t ++ ending)) := by
    have hroom : textBlock (msgTo ++ t) 4 = cells (msgTo ++ t) ++ (zeros 4 ++ []) := by
      rw [List.append_nil, textBlock]
    have hfits : (cells ending).length = (zeros 4).length := rfl
    rw [hroom, store_append (length_cells _).symm hfits, List.append_nil, ← cells_append]
  have hfree : 0 ∉ msgTo ++ t := List.not_mem_append (by decide) ht
  have hall : 0 ∉ msgTo ++ t ++ ending := zero_notMem_frame hfree
  have hi : strlen (textBlock msgTo (t.length + 4)) = .ok msgTo.length :=
    strlen_textBlock (by decide) (by omega)
  have hj : strlen (textBlock (msgTo ++ t) 4) = .ok (msgTo ++ t).length :=
    strlen_textBlock hfree (by decide)
  rw [toFrame]
  simp only [hn, h₁, hi, htake, h₂, hj, h₃, bind, Except.bind]
  by_cases hslack : slack (cells (msgTo ++ t ++ ending)) = 0
  · rw [if_pos hslack, hslack]
    exact cstr_cells_outOfBounds hall
  · rw [if_neg hslack]
    exact cstr_textBlock hall hslack

/-- The frame of a `/chat`, where a NUL stands behind its block. -/
theorem toFrame_eq (slack : Slack) {t : Bytes} (ht : 0 ∉ t) {k : ℕ} (hk : k ≠ 0) :
    toFrame slack (textBlock t k) =
      if slack (cells (msgTo ++ t ++ ending)) = 0 then .error .outOfBounds
      else .ok (msgTo ++ t ++ ending) :=
  toFrame_of_cstr slack (cstr_textBlock ht hk)

/-- Every `TO` frame is the verb, a text and the ending. -/
theorem exists_of_toFrame {slack : Slack} {newBuf : Block} {newStr : Bytes}
    (h : toFrame slack newBuf = .ok newStr) : ∃ t, newStr = msgTo ++ t ++ ending := by
  cases hcstr : cstr newBuf with
  | error e =>
      have hlen : strlen newBuf = .error e := by
        rw [strlen, hcstr]
        rfl
      rw [toFrame, hlen] at h
      cases h
  | ok t =>
      rw [toFrame_of_cstr slack hcstr] at h
      split_ifs at h
      exact ⟨t, (Except.ok.inj h).symm⟩

/-- **A message typed** is filed in the window of its receiver and sent. -/
theorem run_chatInput_chat {slack : Slack} (hslack : ∀ blk, slack blk ≠ 0) {c : Process}
    (hc : ∀ u ∈ c.users, 0 ∉ u.username) {w t : Bytes} (hw : IsWord w) (ht : 0 ∉ t)
    (hlen : (userChat ++ 32 :: (w ++ 32 :: t)).length < maxline) :
    ∃ u ∈ (c.withUser w).users, u.username = w ∧
      (chatInput slack (readBuf (userChat ++ 32 :: (w ++ 32 :: t)))).run c =
        (.ok .again, { c.withUser w with
          wrote := c.wrote ++ [(.pipe u.wrt, t)] ++
            [(.sock, msgTo ++ 32 :: (w ++ 32 :: t) ++ ending)] }) := by
  set k := maxline - (userChat ++ 32 :: (w ++ 32 :: t)).length with hk
  have hk0 : k ≠ 0 := by omega
  have hbuf : readBuf (userChat ++ 32 :: (w ++ 32 :: t)) =
      textBlock (userChat ++ 32 :: (w ++ 32 :: t)) k := rfl
  have hslash : strncmpEq (textBlock (userChat ++ 32 :: (w ++ 32 :: t)) k) [47] 1 = .ok true := rfl
  have hword : IsWord userChat := by decide
  have hfree : 0 ∉ 32 :: (w ++ 32 :: t) :=
    List.not_mem_cons_of_ne_of_not_mem (by decide) (zero_notMem_words hw.zero_notMem ht)
  -- the line behind the command, and behind the space after it
  have hdrop : (textBlock (userChat ++ 32 :: (w ++ 32 :: t)) k).drop userChat.length =
      textBlock (32 :: (w ++ 32 :: t)) k := drop_textBlock _ _ _
  have hdrop₁ : (textBlock (32 :: (w ++ 32 :: t)) k).drop 1 = textBlock (w ++ 32 :: t) k := rfl
  obtain ⟨u, hu, hname, hfiled⟩ := run_processMsg hc hw ht hk0 (not_overread hslack w c.users)
  refine ⟨u, hu, hname, ?_⟩
  rw [hbuf, chatInput, hslash, run_mem_ok_bind, if_neg (by decide), wordLength_textBlock hword,
    run_mem_ok_bind]
  dsimp only
  rw [strncmpEq_word hword, run_mem_ok_bind, if_neg (by decide), strncmpEq_word hword,
    run_mem_ok_bind, if_neg (by decide), strncmpEq_word hword, run_mem_ok_bind, if_pos (by decide),
    hdrop, hdrop₁, Eff.run_bind_ok hfiled, toFrame_eq slack hfree hk0,
      if_neg (hslack _), run_mem_ok_bind,
    run_write_bind]
  rfl

/-- What comes of a request without arguments. -/
theorem run_bareRequest (slack : Slack) {str : Bytes} (h0 : 0 ∉ str) (next : Next) (c : Process) :
    (do
      let temp ← mem (setStringEnding slack str)
      let s ← mem (cstr temp)
      write .sock s
      pure next : Chat Next).run c =
        if 5 ≤ slack (cells str) then (.ok next,
          { c with wrote := c.wrote ++ [(.sock, str ++ ending)] })
        else (.error (.fault .outOfBounds), c) := by
  have hbind : ∀ k : Bytes → Chat Next,
      (mem (setStringEnding slack str) >>= fun temp => mem (cstr temp) >>= k) =
        mem (setStringEnding slack str >>= cstr) >>= k := by
    intro k
    cases setStringEnding slack str <;> rfl
  rw [hbind, setStringEnding_bind_cstr slack h0]
  split_ifs <;> rfl

/-- A request without arguments keeps what its frame keeps. -/
theorem keeps_bareRequest {I : Process → Prop} (slack : Slack) {str : Bytes} (h0 : 0 ∉ str)
    (hreq : ∀ c, I c → I { c with wrote := c.wrote ++ [(.sock, str ++ ending)] }) (next : Next) :
    Eff.Keeps I (do
      let temp ← mem (setStringEnding slack str)
      let s ← mem (cstr temp)
      write .sock s
      pure next) := by
  refine keeps_mem_bind fun temp htemp => keeps_mem_bind fun s hs => ?_
  obtain rfl := eq_of_setStringEnding h0 htemp hs
  exact .bind (.modify hreq) fun _ => .pure _

end ME2U.Client
