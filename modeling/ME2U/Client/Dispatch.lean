import ME2U.Client.Input
import ME2U.Client.Words
import ME2U.Found.Dispatch

/-!
# Which handler runs

`regular_chat` compares the first word of a string with one verb after the other, and the first word
of a line with one command after the other. It compares as many bytes as the word has, so that a
beginning of a verb will do, and the empty word is a beginning of all. A string with another first
word is passed over; a line with another one is an error.

* `serverVerb`, `command`: the tests, in their order; `serverFrame_eq`, `chatInput_eq`: the branches
  that they select.
* `keeps_chatInput_of`: a line changes nothing that its command keeps.
* `serverVerb_cells`, `command_cells`: what is selected is picked by the first word.
* `dispatch_exact_iff`: which strings and lines run exactly the handler that they name.
-/

namespace ME2U.Client

/-! ## The tests -/

/-- The verbs of the server. -/
inductive ServerVerb
  | utsil
  | ot
  | edne
  | fromUser
  | uoff
  | eyb
  deriving DecidableEq

/-- Source: `client.h` (lines 26–50) -/
def ServerVerb.text : ServerVerb → Bytes
  | .utsil => serverListUser
  | .ot => confirmMsgTo
  | .edne => noUsr
  | .fromUser => msgFrom
  | .uoff => serverByeBrod
  | .eyb => serverByeAck

/-- The order of the tests.
Source: `client.c` `regular_chat` (lines 232–258) -/
def ServerVerb.all : List ServerVerb := [.utsil, .ot, .edne, .fromUser, .uoff, .eyb]

/-- The commands of the user. -/
inductive UserCommand
  | help
  | listu
  | chat
  | logout
  deriving DecidableEq

/-- Source: `client.h` (lines 54–57) -/
def UserCommand.text : UserCommand → Bytes
  | .help => userHelp
  | .listu => userListu
  | .chat => userChat
  | .logout => userLogout

/-- The order of the tests.
Source: `client.c` `regular_chat` (lines 275–302) -/
def UserCommand.all : List UserCommand := [.help, .listu, .chat, .logout]

/-- All verbs are tested for. -/
theorem ServerVerb.mem_all (v : ServerVerb) : v ∈ all := by cases v <;> decide

/-- All commands are tested for. -/
theorem UserCommand.mem_all (c : UserCommand) : c ∈ all := by cases c <;> decide

/-- The first of the words that agrees in `n` bytes with the string at a pointer. -/
def firstSelected {κ : Type} (text : κ → Bytes) (p : Block) (n : ℕ) :
    List κ → Except Fault (Option κ)
  | [] => .ok none
  | k :: ks => do
      let same ← strncmpEq p (text k) n
      if same then .ok (some k) else firstSelected text p n ks

/-- The verb whose handler is run for a string of the server, if any.
Source: `client.c` `regular_chat` (lines 231–258) -/
def serverVerb (processStr : Block) : Except Fault (Option ServerVerb) := do
  let firstWdL ← wordLength processStr
  firstSelected ServerVerb.text processStr firstWdL ServerVerb.all

/-- The command that is run for a line, if any.
Source: `client.c` `regular_chat` (lines 271–302) -/
def command (readBuf : Block) : Except Fault (Option UserCommand) := do
  let isCommand ← strncmpEq readBuf [47] 1
  if ¬isCommand then .ok none
  else do
    let firstWdL ← wordLength readBuf
    firstSelected UserCommand.text readBuf firstWdL UserCommand.all

/-! ## The branches -/

section Branches

variable (slack : Slack)

/-- What is done for a verb with the string behind the first word.
Source: `client.c` `regular_chat` (lines 233–260) -/
def handler (rest : Block) : ServerVerb → Chat Next
  | .utsil => do
      listUsers rest
      pure .again
  | .ot => do
      msgConfirmed slack rest
      pure .again
  | .edne => do
      noUserExists rest
      pure .again
  | .fromUser => do
      processMsg slack rest
      confirmFrom rest
      pure .again
  | .uoff => do
      someoneExited rest
      pure .again
  | .eyb => pure .returned

/-- What is done for a command.
Source: `client.c` `regular_chat` (lines 276–309) -/
def runCommand (readBuf : Block) : UserCommand → Chat Next
  | .help => do
      write .stdout helpString
      pure .again
  | .listu => do
      let temp ← mem (setStringEnding slack clientListUser)
      let s ← mem (cstr temp)
      write .sock s
      pure .again
  | .chat => do
      let newBuf := readBuf.drop userChat.length
      processMsg slack (newBuf.drop 1)
      let newStr ← mem (toFrame slack newBuf)
      write .sock newStr
      pure .again
  | .logout => do
      let temp ← mem (setStringEnding slack clientBye)
      let s ← mem (cstr temp)
      write .sock s
      pure .shut

/-- The request without arguments that a command sends, if it sends one. -/
def UserCommand.bareRequest : UserCommand → Option Bytes
  | .listu => some clientListUser
  | .logout => some clientBye
  | .help | .chat => none

/-- The one that a line sends. -/
def bareRequest (readBuf : Block) : Option Bytes :=
  (command readBuf).toOption.join.bind UserCommand.bareRequest

/-- What is done for a line that is a command, or should be one.
Source: `client.c` `regular_chat` (lines 275–314) -/
def runSelected (readBuf : Block) : Option UserCommand → Chat Next
  | some c => runCommand slack readBuf c
  | none => Eff.stop (.error "Client sent msg that cannot be understood")

/-- With no test left, nothing is selected. -/
theorem mem_firstSelected_nil_bind {κ σ α : Type} (text : κ → Bytes) (p : Block) (n : ℕ)
    (f : Option κ → Eff σ Halt α) : mem (firstSelected text p n []) >>= f = f none := rfl

/-- One test, and then the others. -/
theorem mem_firstSelected_cons_bind {κ σ α : Type} (text : κ → Bytes) (p : Block) (n : ℕ) (k : κ)
    (ks : List κ) (f : Option κ → Eff σ Halt α) :
    mem (firstSelected text p n (k :: ks)) >>= f = mem (strncmpEq p (text k) n) >>= fun same =>
      if same then f (some k) else mem (firstSelected text p n ks) >>= f := by
  rw [firstSelected]
  rcases strncmpEq p (text k) n with e | same
  · rfl
  · cases same <;> rfl

/-- **A string of the server** is handed to the handler of the verb selected, or passed over. -/
theorem serverFrame_eq (processStr : Block) :
    serverFrame slack processStr = (do
      let firstWdL ← mem (wordLength processStr)
      let v ← mem (firstSelected ServerVerb.text processStr firstWdL ServerVerb.all)
      match v with
      | some v => handler slack (processStr.drop (firstWdL + 1)) v
      | none => pure .input) := by
  simp only [ServerVerb.all, mem_firstSelected_cons_bind, mem_firstSelected_nil_bind]
  rfl

/-- **A line** that is a command runs the command selected, or is an error. -/
theorem chatInput_eq (readBuf : Block) :
    chatInput slack readBuf = (do
      let isCommand ← mem (strncmpEq readBuf [47] 1)
      if ¬isCommand then pure .again
      else do
        let firstWdL ← mem (wordLength readBuf)
        let c ← mem (firstSelected UserCommand.text readBuf firstWdL UserCommand.all)
        runSelected slack readBuf c) := by
  simp only [UserCommand.all, mem_firstSelected_cons_bind, mem_firstSelected_nil_bind]
  rfl

/-- A line of a command begins with a slash. -/
theorem strncmpEq_slash (p : Block) : strncmpEq (some 47 :: p) [47] 1 = .ok true := by
  simp [strncmpEq]

/-- What begins with a slash is a command. -/
theorem command_of_slash {readBuf : Block} (hslash : strncmpEq readBuf [47] 1 = .ok true) :
    command readBuf = wordLength readBuf >>= fun n =>
      firstSelected UserCommand.text readBuf n UserCommand.all := by
  unfold command
  rw [hslash]
  rfl

/-- A line that begins with a slash runs the command selected. -/
theorem chatInput_of_slash {readBuf : Block} (hslash : strncmpEq readBuf [47] 1 = .ok true) :
    chatInput slack readBuf = mem (command readBuf) >>= runSelected slack readBuf := by
  rw [chatInput_eq, command, hslash]
  dsimp only [ok_bind]
  cases wordLength readBuf <;> rfl

/-- Where a command is selected, it is run. -/
theorem chatInput_of_command {readBuf : Block} {c : UserCommand}
    (h : command readBuf = .ok (some c)) :
    chatInput slack readBuf = runCommand slack readBuf c := by
  have hslash : strncmpEq readBuf [47] 1 = .ok true := by
    unfold command at h
    rcases hslash : strncmpEq readBuf [47] 1 with e | _ | _
    · rw [hslash] at h
      cases h
    · rw [hslash] at h
      cases h
    · rfl
  rw [chatInput_of_slash slack hslash, h]
  rfl

end Branches

/-! ## What a line keeps -/

section Keeps

variable {I : Process → Prop} (slack : Slack) {blk : Block}

/-- A line keeps what its command keeps. -/
theorem keeps_chatInput_of_command
    (h : ∀ k, command blk = .ok (some k) → Eff.Keeps I (runCommand slack blk k)) :
    Eff.Keeps I (chatInput slack blk) := by
  rcases hslash : strncmpEq blk [47] 1 with e | _ | _
  · rw [chatInput_eq, hslash]
    exact keeps_mem_bind fun _ hok => nomatch hok
  · rw [chatInput_eq, hslash]
    exact .pure _
  · rw [chatInput_of_slash slack hslash]
    refine keeps_mem_bind fun k hk => ?_
    cases k with
    | none => exact .stop _
    | some k => exact h k hk

/-- A command that calls no `process_msg` keeps what is printed and its request keep. -/
theorem Printing.keeps_runCommand (hprint : Printing I) {k : UserCommand} (hk : k ≠ .chat)
    (hreq : ∀ str ∈ k.bareRequest, ∀ c,
      I c → I { c with wrote := c.wrote ++ [(.sock, str ++ ending)] }) :
    Eff.Keeps I (runCommand slack blk k) := by
  cases k with
  | help => exact .bind (hprint.keeps_write _) fun _ => .pure _
  | listu => exact keeps_bareRequest slack (by decide) (hreq clientListUser rfl) .again
  | chat => exact absurd rfl hk
  | logout => exact keeps_bareRequest slack (by decide) (hreq clientBye rfl) .shut

/-- The request of a command without arguments. -/
theorem mem_bareRequest {k : UserCommand} (hk : command blk = .ok (some k)) {str : Bytes}
    (hstr : str ∈ k.bareRequest) : str ∈ bareRequest blk := by
  unfold bareRequest
  rwa [hk]

/-- Only `/logout` sends another one than `LISTU`. -/
theorem eq_of_mem_bareRequest (hstay : (command blk).toOption.join ≠ some .logout) {str : Bytes}
    (hstr : str ∈ bareRequest blk) : str = clientListUser := by
  unfold bareRequest at hstr
  obtain ⟨k, hk, hstr⟩ := Option.bind_eq_some_iff.mp hstr
  cases k with
  | listu => exact (Option.some.inj hstr).symm
  | logout => exact absurd hk hstay
  | help | chat => cases hstr

/-- A line keeps what `process_msg`, what is printed and the frames that are sent keep. -/
theorem keeps_chatInput_of (hprint : Printing I)
    (hmsg : Eff.Keeps I (processMsg slack ((blk.drop userChat.length).drop 1)))
    (hreq : ∀ str ∈ bareRequest blk, ∀ c,
      I c → I { c with wrote := c.wrote ++ [(.sock, str ++ ending)] })
    (hto : ∀ newStr, toFrame slack (blk.drop userChat.length) = .ok newStr → ∀ c, I c →
      I { c with wrote := c.wrote ++ [(.sock, newStr)] }) :
    Eff.Keeps I (chatInput slack blk) := by
  refine keeps_chatInput_of_command slack fun k hk => ?_
  by_cases hchat : k = .chat
  · subst hchat
    refine .bind hmsg fun _ => keeps_mem_bind fun newStr hstr => ?_
    exact .bind (.modify (hto newStr hstr)) fun _ => .pure _
  · exact hprint.keeps_runCommand slack hchat fun str hstr => hreq str (mem_bareRequest hk hstr)

end Keeps

/-- **A line**, whatever `read_buf` holds, keeps what the handlers keep, if its frame keeps it
too. -/
theorem Stable.keeps_chatInput_block {I : Process → Prop} (hI : Stable I)
    (slack : Slack) {blk : Block}
    (hreq : ∀ str ∈ bareRequest blk, ∀ c,
      I c → I { c with wrote := c.wrote ++ [(.sock, str ++ ending)] })
    (hto : ∀ newStr, toFrame slack (blk.drop userChat.length) = .ok newStr → ∀ c, I c →
      I { c with wrote := c.wrote ++ [(.sock, newStr)] }) :
    Eff.Keeps I (chatInput slack blk) :=
  keeps_chatInput_of slack hI.quiet.printing (hI.keeps_processMsg slack _) hreq hto

/-- A line in a clear `read_buf`. -/
theorem Stable.keeps_chatInput {I : Process → Prop} (hI : Stable I) (slack : Slack) {line : Bytes}
    (h0 : 0 ∉ line) (hlen : line.length < maxline)
    (hreq : ∀ str ∈ bareRequest (readBuf line), ∀ c, I c →
      I { c with wrote := c.wrote ++ [(.sock, str ++ ending)] })
    (hto : ∀ c, I c → I { c with
      wrote := c.wrote ++ [(.sock, msgTo ++ line.drop userChat.length ++ ending)] }) :
    Eff.Keeps I (chatInput slack (readBuf line)) := by
  refine hI.keeps_chatInput_block slack hreq fun newStr hstr => ?_
  have hdrop : (readBuf line).drop userChat.length =
      textBlock (line.drop userChat.length)
        (maxline - line.length - (userChat.length - line.length)) := by
    rw [readBuf, textBlock, List.drop_append, length_cells]
    simp [textBlock, cells, zeros, List.map_drop]
  have hroom : maxline - line.length - (userChat.length - line.length) ≠ 0 := by
    have hcmd : userChat.length = 5 := by decide
    have hmax : 5 < maxline := by decide
    omega
  rw [hdrop, toFrame_eq slack (fun h => h0 (List.mem_of_mem_drop h)) hroom] at hstr
  split_ifs at hstr
  obtain rfl := Except.ok.inj hstr
  exact hto

/-! ## What the first word selects -/

/-- A verb is selected by its beginnings. -/
theorem selects_eq (w verb : Bytes) : Selects w verb = decide (w <+: verb) := by
  unfold Selects
  by_cases hpre : w <+: verb
  · rw [decide_eq_true hpre, ← List.prefix_iff_eq_take.mp hpre, beq_self_eq_true]
  · rw [decide_eq_false hpre]
    exact beq_false_of_ne fun heq => hpre (List.prefix_iff_eq_take.mpr heq)

/-- The tests pick by the first word. -/
theorem firstSelected_eq {κ : Type} (text : κ → Bytes) {p : Block} {w : Bytes}
    (hw : ∀ verb, strncmpEq p verb w.length = .ok (Selects w verb)) (ks : List κ) :
    firstSelected text p w.length ks = .ok (pick text ks w) := by
  induction ks with
  | nil => rfl
  | cons k ks ih =>
      rw [firstSelected, hw, ih, selects_eq]
      by_cases hpre : w <+: text k
      · simp [pick, hpre, bind, Except.bind]
      · simp [pick, hpre, bind, Except.bind]

/-- The comparison of a word with a verb. -/
theorem strncmpEq_cells_word {w : Bytes} (hw : IsWord w) (q : Block) (verb : Bytes) :
    strncmpEq (cells w ++ q) verb w.length = .ok (Selects w verb) := by
  rw [strncmpEq_cells hw.zero_notMem (Nat.le_refl _), List.take_length, Selects]

/-- **A string** selects the first verb that its first word begins. -/
theorem serverVerb_cells {w : Bytes} (hw : IsWord w) {c : UInt8} (hc : IsSep c) (q : Block) :
    serverVerb (cells w ++ some c :: q) = .ok (pick ServerVerb.text ServerVerb.all w) := by
  unfold serverVerb
  rw [wordLength_cells hw hc]
  exact firstSelected_eq _ (strncmpEq_cells_word hw _) _

/-- **A line** selects the first command that its first word begins. -/
theorem command_cells {w : Bytes} (hw : IsWord (47 :: w)) {c : UInt8} (hc : IsSep c) (q : Block) :
    command (cells (47 :: w) ++ some c :: q) =
      .ok (pick UserCommand.text UserCommand.all (47 :: w)) := by
  have hslash : strncmpEq (cells (47 :: w) ++ some c :: q) [47] 1 = .ok true := strncmpEq_slash _
  rw [command_of_slash hslash, wordLength_cells hw hc]
  exact firstSelected_eq _ (strncmpEq_cells_word hw _) _

/-- A word that fills its block has no end. -/
theorem wordLength_cells_outOfBounds {w : Bytes} (hw : IsWord w) :
    wordLength (cells w) = .error .outOfBounds := by
  induction w with
  | nil => rfl
  | cons b w ih =>
      have hrest := ih fun c hc => hw c (List.mem_cons_of_mem b hc)
      simp only [cells, List.map_cons, wordLength] at hrest ⊢
      rw [if_neg (hw b List.mem_cons_self), hrest]
      rfl

/-- A line of one word that fills `read_buf` runs no command. -/
theorem command_cells_outOfBounds {w : Bytes} (hw : IsWord (47 :: w)) :
    command (cells (47 :: w)) = .error .outOfBounds := by
  have hslash : strncmpEq (cells (47 :: w)) [47] 1 = .ok true := strncmpEq_slash _
  rw [command_of_slash hslash, wordLength_cells_outOfBounds hw]
  rfl

/-- A text with a separator is its first word, a separator and what is behind. -/
theorem exists_firstWord_eq {s : Bytes} (h : ∃ c ∈ s, IsSep c) :
    ∃ c, IsSep c ∧ s = firstWord s ++ c :: behindWord s := by
  rcases firstWord_cases s with ⟨hword, -⟩ | hsep
  · obtain ⟨c, hc, hsep⟩ := h
    rw [← hword] at hc
    exact absurd hsep (isWord_firstWord s c hc)
  · exact hsep

/-- The same, in written bytes. -/
theorem exists_cells_firstWord_eq {s : Bytes} (h : ∃ c ∈ s, IsSep c) : ∃ c, IsSep c ∧
    ∀ q, cells s ++ q = cells (firstWord s) ++ some c :: (cells (behindWord s) ++ q) := by
  obtain ⟨c, hc, heq⟩ := exists_firstWord_eq h
  refine ⟨c, hc, fun q => ?_⟩
  conv_lhs => rw [heq]
  simp [cells]

/-- NULs behind a text are not a part of its first word. -/
theorem firstWord_append_zeros (s : Bytes) (n : ℕ) :
    firstWord (s ++ List.replicate n 0) = firstWord s := by
  unfold firstWord
  rw [List.takeWhile_append]
  split_ifs with hall
  · have hnil : (List.replicate n (0 : UInt8)).takeWhile (fun c => !decide (IsSep c)) = [] := by
      cases n with
      | zero => rfl
      | succ n => rfl
    rw [hnil, List.append_nil]
    exact ((List.takeWhile_prefix _).eq_of_length hall).symm
  · rfl

/-- The slash is part of the first word. -/
theorem firstWord_slash (t : Bytes) : firstWord (47 :: t) = 47 :: firstWord t := by
  unfold firstWord
  rw [List.takeWhile_cons_of_pos (by decide)]

/-- The command that the first word picks. -/
def picked (r : Bytes) : Option UserCommand := pick UserCommand.text UserCommand.all (firstWord r)

/-- A first word that is longer than the commands picks none. -/
theorem UserCommand.pick_eq_none {w : Bytes} (hw : maxline ≤ w.length) :
    pick text all w = none := by
  rw [pick_eq_none_iff]
  intro c _ hpre
  have hshort : c.text.length < maxline := by cases c <;> decide
  exact absurd hpre.length_le (by omega)

/-- A line without a separator that fills `read_buf` picks nothing. -/
theorem picked_eq_none {r : Bytes} (hlen : maxline ≤ r.length) (hsep : ¬∃ c ∈ r, IsSep c) :
    picked r = none := by
  apply UserCommand.pick_eq_none
  rcases firstWord_cases r with ⟨hword, -⟩ | ⟨c, hc, heq⟩
  · rwa [hword]
  · exact absurd ⟨c, by rw [heq]; simp, hc⟩ hsep

/-- A line with a separator, whatever is behind `read_buf`. -/
theorem command_cells_of_sep {t : Bytes} (hsep : ∃ c ∈ 47 :: t, IsSep c) (q : Block) :
    command (cells (47 :: t) ++ q) = .ok (picked (47 :: t)) := by
  obtain ⟨c, hc, hblk⟩ := exists_cells_firstWord_eq hsep
  have hword := isWord_firstWord (47 :: t)
  rw [hblk q]
  unfold picked
  rw [firstWord_slash] at hword ⊢
  exact command_cells hword hc _

/-- **A line in any `read_buf`** runs what its first word picks. -/
theorem toOption_command_cells {t : Bytes} (hlen : maxline ≤ (47 :: t).length) :
    (command (cells (47 :: t))).toOption.join = picked (47 :: t) := by
  by_cases hsep : ∃ c ∈ 47 :: t, IsSep c
  · have hcommand := command_cells_of_sep hsep []
    rw [List.append_nil] at hcommand
    rw [hcommand]
    rfl
  · rw [picked_eq_none hlen hsep, command_cells_outOfBounds fun c hc h => hsep ⟨c, hc, h⟩]
    rfl

/-- The bytes of a cleared `read_buf` with `b` in it. -/
theorem readBuf_eq_cells (b : Bytes) :
    readBuf b = cells (b ++ List.replicate (maxline - b.length) 0) := by
  simp [readBuf, textBlock, cells, zeros]

/-- The command that runs for a line in a clear `read_buf`. -/
theorem command_readBuf_eq_iff (t : Bytes) (c : UserCommand) :
    command (readBuf (47 :: t)) = .ok (some c) ↔ picked (47 :: t) = some c := by
  have hlen : maxline ≤ (47 :: (t ++ List.replicate (maxline - (47 :: t).length) 0)).length := by
    rw [List.length_cons, List.length_append, List.length_replicate, List.length_cons]
    omega
  have hpick : picked (47 :: (t ++ List.replicate (maxline - (47 :: t).length) 0)) =
      picked (47 :: t) := by
    unfold picked
    rw [← List.cons_append, firstWord_append_zeros]
  have hcommand := toOption_command_cells hlen
  rw [hpick, ← List.cons_append, ← readBuf_eq_cells] at hcommand
  rw [← hcommand]
  cases command (readBuf (47 :: t)) with
  | error f => simp [Except.toOption]
  | ok o => simp [Except.toOption]

/-! ## Exactness -/

/-- No verb begins another. -/
theorem ServerVerb.apart : ∀ v ∈ all, ∀ v' ∈ all, v.text <+: v'.text → v = v' := by decide

/-- No command begins another. -/
theorem UserCommand.apart : ∀ c ∈ all, ∀ c' ∈ all, c.text <+: c'.text → c = c' := by decide

/-- The handlers that run for a string of the server: that of the verb that the string has for its
first word, and where it has none the session ends with an error. -/
structure FrameDispatched (body : Bytes) : Prop where
  handled : ∀ v, serverVerb (textBlock body 4) = .ok (some v) ↔ firstWord body = v.text
  refused : (∀ v : ServerVerb, firstWord body ≠ v.text) → ∀ slack c, ∃ msg,
    ((serverFrame slack (textBlock body 4)).run c).1 = .error (.error msg)

/-- The command that runs for a line is the one that the line has for its first word. -/
def LineDispatched (line : Bytes) : Prop :=
  ∀ c, command (readBuf line) = .ok (some c) ↔ firstWord line = c.text

/-- A string is dispatched exactly iff its first word is a verb: where it begins no verb, it is
passed over. -/
theorem frameDispatched_iff (body : Bytes) :
    FrameDispatched body ↔ ∃ v : ServerVerb, firstWord body = v.text := by
  obtain ⟨c, q, hc, hblk⟩ := exists_textBlock_eq body (k := 4) (by decide)
  have hverb := serverVerb_cells (isWord_firstWord body) hc q
  rw [← hblk] at hverb
  constructor
  · intro h
    by_contra hno
    rw [not_exists] at hno
    have hnone : pick ServerVerb.text ServerVerb.all (firstWord body) = none := by
      cases hpick : pick ServerVerb.text ServerVerb.all (firstWord body) with
      | none => rfl
      | some v =>
          rw [hpick] at hverb
          exact absurd ((h.handled v).mp hverb) (hno v)
    rw [hnone] at hverb
    obtain ⟨msg, hmsg⟩ := h.refused hno (fun _ => 0) .initial
    rw [serverFrame_eq, wordLength_firstWord body (by decide), run_mem_ok_bind,
      firstSelected_eq _ (fun verb => strncmpEq_firstWord body verb (by decide)), hnone] at hmsg
    cases hmsg
  · rintro ⟨v, hv⟩
    refine ⟨fun v' => ?_, fun hno => absurd hv (hno v)⟩
    have hexact := (pick_exact_iff ServerVerb.apart (w := firstWord body)).mpr
      (fun k _ _ => ⟨v, v.mem_all, hv⟩) v' v'.mem_all
    rw [hverb, ← hexact]
    simp

/-- A line is dispatched exactly iff its first word is a command or begins none. -/
theorem lineDispatched_iff (t : Bytes) :
    LineDispatched (47 :: t) ↔ ∀ c : UserCommand, firstWord (47 :: t) <+: c.text →
      ∃ c' : UserCommand, firstWord (47 :: t) = c'.text := by
  have hexact := pick_exact_iff UserCommand.apart (w := firstWord (47 :: t))
  simp only [UserCommand.mem_all, true_and, forall_const] at hexact
  rw [← hexact]
  exact forall_congr' fun c => by rw [command_readBuf_eq_iff, picked]

/-- **Exact dispatch**: a string of the server runs exactly the handler that its first word names,
or ends the session, iff its first word is one of the verbs; a line runs exactly the command that
its first word names, iff its first word is one of the commands or begins none of them. -/
theorem dispatch_exact_iff (body t : Bytes) :
    (FrameDispatched body ↔ ∃ v : ServerVerb, firstWord body = v.text) ∧
      (LineDispatched (47 :: t) ↔ ∀ c : UserCommand, firstWord (47 :: t) <+: c.text →
        ∃ c' : UserCommand, firstWord (47 :: t) = c'.text) :=
  ⟨frameDispatched_iff body, lineDispatched_iff t⟩

/-- `LOUD`, which begins no verb, ends nothing; `F` runs the handler of `FROM`, and `/l` the command
`/listu`. -/
theorem not_dispatch_exact : ¬FrameDispatched (encode ['L', 'O', 'U', 'D']) ∧
    ¬FrameDispatched (encode ['F', ' ', 'b', 'o', 'b', ' ', 'h', 'i']) ∧
      ¬LineDispatched (encode ['/', 'l', '\n']) := by
  refine ⟨?_, ?_, ?_⟩
  · intro h
    obtain ⟨msg, hmsg⟩ := h.refused (fun v => by cases v <;> decide) (fun _ => 0) .initial
    cases hmsg
  · intro h
    exact absurd ((h.handled .fromUser).mp (by decide)) (by decide)
  · intro h
    exact absurd ((h .listu).mp (by decide)) (by decide)

end ME2U.Client
