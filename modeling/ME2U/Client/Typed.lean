import ME2U.Client.Announced
import ME2U.Client.ReadBuf

/-!
# What a line is taken for

The terminal and the socket share `read_buf`, and a line that is read behind a string of the server
does not clear it. What the server has sent is left behind the line, up to where a command looks for
the end of a word or of the line.

* `lineCommand_cells`, `nameUsed_cells`, `sockFrames_cells`: what a line comes to, by the bytes in
  `read_buf`.
* `Unmixed`: that what is left behind a line is not taken for a part of it.
* `typedAlone_iff`: in which iterations the line alone decides what it comes to.
-/

namespace ME2U.Client

/-! ## What a line comes to -/

/-- The command that is executed for the line in `read_buf`, if any. -/
def lineCommand (blk : Block) : Option UserCommand := (command blk).toOption.join

/-- The name that a message is filed under.
Source: `client.c` `process_msg` (lines 449–452) -/
def processName (msg : Block) : Except Fault Bytes := do
  let nameLen ← wordLength msg
  let name ← memcpy (zeros (nameLen + 1)) msg nameLen
  cstr name

/-- The name that `process_msg` uses for the line in `read_buf`, if it is called and finds one. -/
def nameUsed (blk : Block) : Option Bytes :=
  if lineCommand blk =
    some .chat then (processName ((blk.drop userChat.length).drop 1)).toOption else none

/-- The frames that are sent to the server for the line in `read_buf`. -/
def sockFrames (slack : Slack) (c : Process) (blk : Block) : List Bytes :=
  ((((chatInput slack blk).run c).2.wrote.drop c.wrote.length).filter fun x =>
    x.1 = .sock).map Prod.snd

/-- What the line in `read_buf` comes to is what it comes to in a clear `read_buf`. -/
structure TypedAlone (blk : Block) (line : Bytes) : Prop where
  command : lineCommand blk = lineCommand (readBuf line)
  name : nameUsed blk = nameUsed (readBuf line)
  frames : ∀ slack c, (∀ u ∈ c.users, 0 ∉ u.username) →
    sockFrames slack c blk = sockFrames slack c (readBuf line)

/-! ## By the bytes in `read_buf` -/

/-- The name is the word in front of the separator, -/
theorem processName_word {w : Bytes} (hw : IsWord w) {b : UInt8} (hb : IsSep b) (q : Block) :
    processName (cells w ++ some b :: q) = .ok w := by
  unfold processName
  rw [wordLength_cells hw hb, ok_bind, memcpy_cells_word, ok_bind,
    cstr_textBlock hw.zero_notMem Nat.one_ne_zero]

/-- and there is none where there is no separator. -/
theorem processName_cells (m : Bytes) : (processName (cells m)).toOption = upTo IsSep m := by
  rw [upTo_isSep_eq]
  split_ifs with hsep
  · obtain ⟨b, hb, hsplit⟩ := exists_cells_firstWord_eq hsep
    have hmsg := hsplit []
    rw [List.append_nil, List.append_nil] at hmsg
    rw [hmsg, processName_word (isWord_firstWord m) hb]
    rfl
  · unfold processName
    rw [wordLength_cells_outOfBounds fun b hb h => hsep ⟨b, hb, h⟩]
    rfl

/-- The frame of a `/chat`, where the text behind the name has an end. -/
def chatFrame (r : Bytes) : Option Bytes :=
  if 0 ∈ behindWord (r.drop 6) then (upTo (· = 0) (r.drop 5)).map fun t =>
    msgTo ++ t ++ ending else none

section Cells

variable {r : Bytes} (hlen : maxline ≤ r.length)
include hlen

/-- The command of a line, in terms of its bytes, -/
theorem lineCommand_cells :
    lineCommand (cells r) = if r.head? = some 47 then picked r else none := by
  cases r with
  | nil => cases hlen
  | cons a t =>
      by_cases ha : a = 47
      · subst ha
        exact toOption_command_cells hlen
      · have hslash : strncmpEq (cells (a :: t)) [47] 1 = .ok false := if_neg ha
        unfold lineCommand command
        rw [hslash, if_neg (by simpa using ha)]
        rfl

/-- and the name in it. -/
theorem nameUsed_cells : nameUsed (cells r) =
    if r.head? = some 47 ∧ picked r = some .chat then upTo IsSep (r.drop 6) else none := by
  unfold nameUsed
  rw [lineCommand_cells hlen, drop_cells, drop_cells, List.drop_drop, processName_cells]
  by_cases hslash : r.head? = some 47
  · simp only [hslash, true_and, if_true]
    rfl
  · simp [hslash]

end Cells

/-! ## The frames -/

/-- What has been written since, with nothing to the server. -/
def WroteElsewhere (c c' : Process) : Prop := ∃ ws, c'.wrote = c.wrote ++ ws ∧ ∀ x ∈ ws, x.1 ≠ .sock

/-- Nothing was written. -/
theorem WroteElsewhere.refl (c : Process) : WroteElsewhere c c := ⟨[], by simp, by simp⟩

/-- Output to a window or to stdout is not for the server. -/
theorem stable_wroteElsewhere (c : Process) : Stable (WroteElsewhere c) where
  wrote := by
    rintro c' fd bs hfd ⟨ws, hwrote, hws⟩
    refine ⟨ws ++ [(fd, bs)], by simp [hwrote], ?_⟩
    rw [List.forall_mem_append, List.forall_mem_singleton]
    exact ⟨hws, hfd.ne_sock⟩
  addUser := fun _ _ _ h => h
  confirm := fun _ _ h => h

/-- A line that writes elsewhere only sends nothing. -/
theorem sockFrames_eq_nil {slack : Slack} {c : Process} {blk : Block}
    (h : WroteElsewhere c ((chatInput slack blk).run c).2) : sockFrames slack c blk = [] := by
  obtain ⟨ws, hwrote, hws⟩ := h
  have hnone : ws.filter (fun x => decide (x.1 = .sock)) = [] := by
    rw [List.filter_eq_nil_iff]
    intro x hx
    simpa using hws x hx
  unfold sockFrames
  rw [hwrote, List.drop_left, hnone]
  rfl

/-- The frame of a request without arguments, where there is room for it behind its block. -/
def bareFrame (slack : Slack) (str : Bytes) : List Bytes :=
  if 5 ≤ slack (cells str) then [str ++ ending] else []

/-- A command that is written to the server as it stands sends one frame. -/
theorem sockFrames_of_bareRequest {slack : Slack} (c : Process) {blk : Block}
    {str : Bytes} {next : Next} (h0 : 0 ∉ str) (hline : chatInput slack blk = (do
      let temp ← mem (setStringEnding slack str)
      let s ← mem (cstr temp)
      write .sock s
      pure next)) : sockFrames slack c blk = bareFrame slack str := by
  have hrun := run_bareRequest slack h0 next c
  rw [← hline] at hrun
  unfold bareFrame
  split_ifs at hrun ⊢
  · unfold sockFrames
    rw [hrun, List.drop_left]
    rfl
  · apply sockFrames_eq_nil
    rw [hrun]
    exact .refl c

/-- What is sent for a `/chat`: its frame, if there is one, the user is found or added, and there is
a NUL behind the block of the frame. -/
def chatSent (slack : Slack) (c : Process) (r : Bytes) : List Bytes :=
  (chatFrame r).toList.filter fun f =>
    ¬Overread slack (firstWord (r.drop 6)) c.users ∧ slack (cells f) ≠ 0

/-- The frame of a `/chat` is sent where the text behind the name has an end. -/
theorem sockFrames_of_chat (slack : Slack) {c : Process}
    (hc : ∀ u ∈ c.users, 0 ∉ u.username) {r : Bytes}
    (hline : chatInput slack (cells r) = runCommand slack (cells r) .chat) :
    sockFrames slack c (cells r) = chatSent slack c r := by
  unfold chatSent chatFrame
  split_ifs with h0
  · by_cases hover : Overread slack (firstWord (r.drop 6)) c.users
    · have hrun := run_chat_of_overread hc hover h0 []
      rw [List.append_nil] at hrun
      simp only [hover, not_true_eq_false, false_and, decide_false, List.filter_false]
      apply sockFrames_eq_nil
      rw [hline, hrun]
      exact .refl c
    · obtain ⟨u, t, t', ht', hrun⟩ := run_chat hc hover h0 []
      rw [List.append_nil] at hrun
      rw [← toOption_cstr_cells, ht']
      show _ = [msgTo ++ t' ++ ending].filter _
      generalize msgTo ++ t' ++ ending = f at hrun ⊢
      by_cases hroom : slack (cells f) = 0
      · rw [if_pos hroom] at hrun
        have hnone : sockFrames slack c (cells r) = [] := by
          apply sockFrames_eq_nil
          rw [hline, hrun]
          exact ⟨[(.pipe u.wrt, t)], rfl, by simp⟩
        rw [hnone]
        simp [hroom]
      · rw [if_neg hroom] at hrun
        unfold sockFrames
        rw [hline, hrun, List.append_assoc, List.drop_left]
        simp [hover, hroom]
  · obtain ⟨f, c', hrun, hwrote⟩ := run_chat_error slack hc h0
    apply sockFrames_eq_nil
    rw [hline, hrun]
    exact ⟨[], by simpa using hwrote, by simp⟩

/-- What is sent for a `/chat` goes by its name and its frame. -/
theorem chatSent_congr (slack : Slack) (c : Process) {r r' : Bytes}
    (hname : upTo IsSep (r.drop 6) = upTo IsSep (r'.drop 6)) (hframe : chatFrame r = chatFrame r') :
    chatSent slack c r = chatSent slack c r' := by
  unfold chatSent
  rw [hframe]
  by_cases h0 : 0 ∈ behindWord (r.drop 6) ∧ 0 ∈ behindWord (r'.drop 6)
  · rw [upTo_isSep_eq, upTo_isSep_eq, if_pos (exists_isSep_of_mem_behindWord h0.1),
      if_pos (exists_isSep_of_mem_behindWord h0.2)] at hname
    rw [Option.some.inj hname]
  · -- then neither has a frame
    have hnone : chatFrame r' = none := by
      rcases not_and_or.mp h0 with h | h
      · rw [← hframe]
        exact if_neg h
      · exact if_neg h
    rw [hnone]
    rfl

/-- What is sent to the server for a command. -/
def sentFor (slack : Slack) (c : Process) (r : Bytes) : Option UserCommand → List Bytes
  | some .listu => bareFrame slack clientListUser
  | some .chat => chatSent slack c r
  | some .logout => bareFrame slack clientBye
  | some .help => []
  | none => []

/-- **The frames sent** for the line in `read_buf`. -/
theorem sockFrames_cells {r : Bytes} (hlen : maxline ≤ r.length) (slack : Slack)
    {c : Process} (hc : ∀ u ∈ c.users, 0 ∉ u.username) : sockFrames slack c (cells r) =
      if r.head? = some 47 then sentFor slack c r (picked r) else [] := by
  by_cases hslash : r.head? = some 47
  · rw [if_pos hslash]
    by_cases hsep : ∃ b ∈ r, IsSep b
    · have hline := chatInput_cells slack hslash hsep
      cases hpick : picked r with
      | none =>
          rw [hpick] at hline
          apply sockFrames_eq_nil
          rw [hline]
          exact .refl c
      | some k =>
          rw [hpick] at hline
          cases k with
          | help =>
              apply sockFrames_eq_nil
              rw [hline]
              exact ⟨[(.stdout, helpString)], rfl, by simp⟩
          | listu => exact sockFrames_of_bareRequest c (by decide) hline
          | chat => exact sockFrames_of_chat slack hc hline
          | logout => exact sockFrames_of_bareRequest c (by decide) hline
    · rw [picked_eq_none hlen hsep]
      apply sockFrames_eq_nil
      rw [chatInput_cells_outOfBounds slack hslash hsep]
      exact .refl c
  · rw [if_neg hslash]
    cases r with
    | nil => cases hlen
    | cons a t =>
        have ha : a ≠ 47 := fun h => hslash (congrArg some h)
        have hline : chatInput slack (cells (a :: t)) = pure .again :=
          chatInput_cons_of_ne slack ha _
        apply sockFrames_eq_nil
        rw [hline]
        exact .refl c

/-! ## What is left behind a line -/

/-- What is left behind a line in `read_buf` is not taken for a part of it: not for the end of its
first word, unless the command stays the same, and where that is `/chat` not for the end of the name
or of the text; and the text behind the name has an end. -/
structure Unmixed (line left : Bytes) : Prop where
  command : ∀ k ∈ picked line, firstWord (line ++ left) <+: k.text
  name : picked line = some .chat →
    (∃ c ∈ line.drop 6, IsSep c) ∨ ∃ c ∈ (left.drop (6 - line.length)).head?, IsSep c
  text : picked line = some .chat → 0 ∈ line.drop 5 ∨ ∃ c ∈ (left.drop (5 - line.length)).head?,
    c = 0
  ends : picked line = some .chat → 0 ∈ behindWord ((line ++ left).drop 6)

section Left

variable {line left : Bytes}

/-- More behind a line changes what its first word picks, unless it is a beginning of that. -/
theorem picked_append_eq_iff :
    picked (line ++ left) = picked line ↔
      ∀ k ∈ picked line, firstWord (line ++ left) <+: k.text := by
  obtain ⟨v, hv⟩ : ∃ v, firstWord (line ++ left) = firstWord line ++ v := by
    unfold firstWord
    rw [List.takeWhile_append]
    split_ifs with hall
    · rw [(List.takeWhile_prefix _).eq_of_length hall]
      exact ⟨_, rfl⟩
    · exact ⟨[], (List.append_nil _).symm⟩
  unfold picked
  rw [hv]
  exact pick_append_eq_iff

/-- The zeros behind a line do not change its command. -/
theorem picked_append_zeros (line : Bytes) (n : ℕ) :
    picked (line ++ List.replicate n 0) = picked line := by
  unfold picked
  rw [firstWord_append_zeros]

/-- Where there is a NUL behind the line, what is read up to a delimiter there is the same behind it
iff the delimiter comes before what is left, or at its beginning. -/
theorem upTo_drop_eq_iff {P : UInt8 → Prop} [DecidablePred P] (hP : P 0) {n m : ℕ}
    (hn : n < line.length + m) (hm : 0 < m) (left : Bytes) :
    upTo P ((line ++ left).drop n) = upTo P ((line ++ List.replicate m 0).drop n) ↔
      (∃ c ∈ line.drop n, P c) ∨ ∃ c ∈ (left.drop (n - line.length)).head?, P c := by
  obtain ⟨k, hk⟩ : ∃ k, m - (n - line.length) = k + 1 := ⟨m - (n - line.length) - 1, by omega⟩
  rw [List.drop_append, List.drop_append, List.drop_replicate, hk, List.replicate_succ]
  exact upTo_append_eq_iff hP

/-- In a clear `read_buf` the text behind the name of a line has an end. -/
theorem zero_mem_behindWord_replicate {n m : ℕ} (hn : n + 1 < line.length + m) (hm : 1 < m) :
    0 ∈ behindWord ((line ++ List.replicate m 0).drop n) := by
  obtain ⟨k, hk⟩ : ∃ k, m - (n - line.length) = k + 2 := ⟨m - (n - line.length) - 2, by omega⟩
  have hsplit : (line ++ List.replicate m 0).drop n = (line.drop n ++ List.replicate k 0) ++
      [0, 0] := by
    rw [List.drop_append, List.drop_replicate, hk, List.replicate_add, List.append_assoc]
    rfl
  rw [hsplit]
  exact zero_mem_behindWord _

end Left

/-- Two lines have the same frame, of which one has one, iff the other one has one, and the texts
behind the command are the same. -/
theorem chatFrame_eq_iff {r r₀ : Bytes} (h₀ : 0 ∈ behindWord (r₀.drop 6)) :
    chatFrame r = chatFrame r₀ ↔
      upTo (· = 0) (r.drop 5) = upTo (· = 0) (r₀.drop 5) ∧ 0 ∈ behindWord (r.drop 6) := by
  have hinj : Function.Injective fun t : Bytes => msgTo ++ t ++ ending := by
    intro t t' h
    simpa using h
  unfold chatFrame
  rw [if_pos h₀]
  split_ifs with h
  · rw [(Option.map_injective hinj).eq_iff, and_iff_left h]
  · have hsome : (upTo (· = 0) (r₀.drop 5)).isSome :=
      isSome_upTo_iff.mpr ⟨0, mem_drop_of_mem_behindWord h₀, rfl⟩
    obtain ⟨t, ht⟩ := Option.isSome_iff_exists.mp hsome
    rw [ht]
    exact iff_of_false (by simp) fun hand => h hand.2

/-- Two commands come to the same iff they pick the same, and for `/chat` have the same name and
frame. -/
theorem typedAlone_iff_of_slash {line r : Bytes} {m : ℕ}
    (hclear : readBuf line = cells (line ++ List.replicate m 0))
    (hlen : maxline ≤ r.length) (hlen₀ : maxline ≤ (line ++ List.replicate m 0).length)
    (hslash : r.head? = some 47) (hslash₀ : (line ++ List.replicate m 0).head? = some 47) :
    TypedAlone (cells r) line ↔ picked r = picked line ∧ (picked line = some .chat →
      upTo IsSep (r.drop 6) = upTo IsSep ((line ++ List.replicate m 0).drop 6) ∧
        chatFrame r = chatFrame (line ++ List.replicate m 0)) := by
  have hcommand : lineCommand (cells r) = lineCommand (readBuf line) ↔ picked r = picked line := by
    rw [hclear, lineCommand_cells hlen, lineCommand_cells hlen₀, if_pos hslash, if_pos hslash₀,
      picked_append_zeros]
  have hname : picked r = picked line → (nameUsed (cells r) = nameUsed (readBuf line) ↔
      (picked line = some .chat →
        upTo IsSep (r.drop 6) = upTo IsSep ((line ++ List.replicate m 0).drop 6))) := by
    intro hsame
    rw [hclear, nameUsed_cells hlen, nameUsed_cells hlen₀, picked_append_zeros, hsame]
    by_cases hchat : picked line = some .chat
    · simp [hslash, hslash₀, hchat]
    · simp [hchat]
  have hframes : picked r = picked line → ∀ slack c, (∀ u ∈ c.users, 0 ∉ u.username) →
      (sockFrames slack c (cells r) = sockFrames slack c (readBuf line) ↔
        (picked line = some .chat →
            chatSent slack c r = chatSent slack c (line ++ List.replicate m 0))) := by
    intro hsame slack c hc
    rw [hclear, sockFrames_cells hlen slack hc, sockFrames_cells hlen₀ slack hc,
      picked_append_zeros, hsame, if_pos hslash, if_pos hslash₀]
    cases picked line with
    | none => simp [sentFor]
    | some k => cases k <;> simp [sentFor]
  constructor
  · intro h
    have hsame := hcommand.mp h.command
    refine ⟨hsame, fun hchat => ⟨(hname hsame).mp h.name hchat, ?_⟩⟩
    have hall : ∀ r : Bytes, chatSent (fun _ => 1) .initial r = (chatFrame r).toList := by
      intro r
      unfold chatSent
      simp [Process.initial, Overread]
    have hsent := (hframes hsame (fun _ => 1) .initial (by simp [Process.initial])).mp
      (h.frames (fun _ => 1) .initial (by simp [Process.initial])) hchat
    rw [hall, hall] at hsent
    have hhead := congrArg List.head? hsent
    rwa [Option.head?_toList, Option.head?_toList] at hhead
  · rintro ⟨hsame, hchat⟩
    refine ⟨hcommand.mpr hsame, (hname hsame).mpr fun h => (hchat h).1, ?_⟩
    exact fun slack c hc => (hframes hsame slack c hc).mpr fun h =>
      chatSent_congr slack c (hchat h).1 (hchat h).2

/-- A line comes to what it comes to alone iff it is no command, or nothing is mixed with it. -/
theorem typedAlone_cells_iff {line left : Bytes} (hne : line ≠ [])
    (hline : line.length + 1 < maxline) (hleft : line.length + left.length = maxline) :
    TypedAlone (cells (line ++ left)) line ↔ (line.head? = some 47 → Unmixed line left) := by
  obtain ⟨m, hm⟩ : ∃ m, maxline - line.length = m := ⟨_, rfl⟩
  have hclear : readBuf line = cells (line ++ List.replicate m 0) := by rw [readBuf_eq_cells, hm]
  have hlen : maxline ≤ (line ++ left).length := by rw [List.length_append, hleft]
  have hlen₀ : maxline ≤ (line ++ List.replicate m 0).length := by
    rw [List.length_append, List.length_replicate]
    omega
  have hhead : ∀ q : Bytes, (line ++ q).head? = line.head? :=
    fun q => List.head?_append_of_ne_nil line hne
  have hmax : 6 + 1 < maxline := by decide
  by_cases hslash : line.head? = some 47
  · rw [typedAlone_iff_of_slash hclear hlen hlen₀ ((hhead _).trans hslash) ((hhead _).trans hslash),
      picked_append_eq_iff, chatFrame_eq_iff (zero_mem_behindWord_replicate (by omega) (by omega)),
      upTo_drop_eq_iff (P := IsSep) (.inl rfl) (by omega) (by omega),
      upTo_drop_eq_iff (P := (· = 0)) rfl (by omega) (by omega)]
    constructor
    · rintro ⟨hcommand, hchat⟩ -
      refine ⟨hcommand, fun h => (hchat h).1, fun h => ?_, fun h => (hchat h).2.2⟩
      simpa using (hchat h).2.1
    · intro h
      obtain ⟨hcommand, hname, htext, hends⟩ := h hslash
      refine ⟨hcommand, fun h => ⟨hname h, ?_, hends h⟩⟩
      simpa using htext h
  · -- the line is no command, and what is left behind it does not make it one
    refine iff_of_true ⟨?_, ?_, ?_⟩ fun h => absurd h hslash
    · rw [hclear, lineCommand_cells hlen, lineCommand_cells hlen₀, hhead, hhead,
        if_neg hslash, if_neg hslash]
    · rw [hclear, nameUsed_cells hlen, nameUsed_cells hlen₀, hhead, hhead,
        if_neg fun h => hslash h.1, if_neg fun h => hslash h.1]
    · intro slack c hc
      rw [hclear, sockFrames_cells hlen slack hc, sockFrames_cells hlen₀ slack hc, hhead, hhead,
        if_neg hslash, if_neg hslash]

/-! ## One iteration -/

/-- What is left in `read_buf` behind a line, when `b` was read into it before. -/
def leftBehind (line b : Bytes) : Bytes :=
  (b ++ List.replicate (maxline - b.length) 0).drop line.length

/-- `read_buf` keeps its size. -/
theorem length_leftBehind {line b : Bytes} (hline : line.length ≤ maxline)
    (hb : b.length ≤ maxline) :
    line.length + (leftBehind line b).length = maxline := by
  unfold leftBehind
  rw [List.length_drop, List.length_append, List.length_replicate]
  omega

/-- A line that is read over what was read from the server. -/
theorem lineIn_readBuf {line b : Bytes} (hline : line.length ≤ maxline) (hb : b.length ≤ maxline) :
    lineIn (readBuf b) (.data line) = some (cells (line ++ leftBehind line b)) := by
  have hle : line.length ≤ (b ++ List.replicate (maxline - b.length) 0).length := by
    rw [List.length_append, List.length_replicate]
    omega
  have hlineIn : lineIn (readBuf b) (.data line) = (store (readBuf b) 0 (cells line)).toOption :=
    rfl
  rw [hlineIn, readBuf_eq_cells, store_cells hle]
  rfl

section Iteration

variable {slack : Slack} {pid : ℕ → ℕ} {ready : List ℕ} {server : ReadResult}
    {l l' : Loop} {blk : Block}

/-- Where the line is looked at, `read_buf` holds what was read from the server. -/
theorem readBuf_of_beforeInput
    (h : (beforeInput slack pid ready server).run l = (.ok (.input, blk), l')) :
    blk = readBuf ((received ready server).getD []) := by
  cases hb : received ready server with
  | some b =>
      obtain ⟨l₁, hrun, -⟩ := run_serverString slack pid { l with rset := ready } b
      rw [run_beforeInput_of_received slack pid hb, hrun] at h
      have hout := congrArg Prod.fst h
      cases hnext : ((withSocket l.stdineof (chatRead slack b)).run l.desk.client).1 with
      | error e => rw [hnext] at hout; cases hout
      | ok next => rw [hnext] at hout; cases hout; rfl
  | none =>
      unfold beforeInput at h
      rw [Eff.run_modify_bind] at h
      split_ifs at h with hsock
      · cases server with
        | data b => simp [received, hsock] at hb
        | failed => simp [received, hsock] at hb
        | eof =>
            unfold serverPart at h
            rw [Eff.run_get_bind] at h
            split at h <;> cases h
      · cases h
        rfl

/-- A read gives at most `MAXLINE` bytes. -/
theorem length_received_le (ready : List ℕ) (h : server.Fits) :
    ((received ready server).getD []).length ≤ maxline := by
  cases server with
  | data b =>
      unfold received
      split_ifs
      · exact h.2
      · exact Nat.zero_le _
  | failed =>
      unfold received
      split_ifs <;> exact Nat.zero_le _
  | eof => exact Nat.zero_le _

/-- **A line and what came with it**: in every iteration in which a line is read, whatever was read
from the server before, what the line comes to is determined by it alone iff it is no command or
what is left behind it in `read_buf` is not taken for a part of it. -/
theorem typedAlone_iff {line : Bytes} (hserver : server.Fits)
    (hbefore : (beforeInput slack pid ready server).run l = (.ok (.input, blk), l'))
    (hne : line ≠ []) (hline : line.length + 1 < maxline) :
    ∃ blk', lineIn blk (.data line) = some blk' ∧ (TypedAlone blk' line ↔
      (line.head? = some 47 →
        Unmixed line (leftBehind line ((received ready server).getD [])))) := by
  obtain rfl := readBuf_of_beforeInput hbefore
  have hb := length_received_le ready hserver
  refine ⟨_, lineIn_readBuf (by omega) hb, ?_⟩
  exact typedAlone_cells_iff hne hline (length_leftBehind (by omega) hb)

/-- An incomplete frame leaves the line to be looked at. -/
theorem run_beforeInput_incomplete (slack : Slack) (pid : ℕ → ℕ) {b : Bytes}
    (hbuf : l.desk.client.buf = .of []) (hb : IsRead b) (hopen : ¬ending <:+ b)
    (hlong : Manageable b) : ∃ l',
      (beforeInput slack pid [sockFd, stdinFd] (.data b)).run l =
        (.ok (.input, readBuf b), l') := by
  obtain ⟨l', hrun, -⟩ := run_serverString slack pid { l with rset := [sockFd, stdinFd] } b
  have hread := run_chatRead slack (p := []) (by simp) hb (by decide) hlong (c := l.desk.client)
  have hclient : l.desk.client.withBuf (.of []) = l.desk.client := by
    rw [← hbuf]
    rfl
  rw [hclient, receive_of_not_isSuffix (p := []) hopen] at hread
  refine ⟨l', ?_⟩
  rw [run_beforeInput_of_received slack pid (b := b) rfl, hrun,
    run_withSocket_of_wrote_eq hread fun _ => rfl]
  rfl

end Iteration

/-- A client without users, in front of an iteration. -/
private def idle : Loop := ⟨⟨.initial, [], []⟩, [], false, []⟩

/-- A `/chat` for `b`. -/
private def chatLine : Bytes := userChat ++ [32, 98, 32, 104, 10]

/-- An incomplete frame that is shorter than the line. -/
theorem typedAlone_short : ∃ blk', lineIn (readBuf [85, 79, 70, 70]) (.data chatLine) = some blk' ∧
    TypedAlone blk' chatLine := by
  have hfits : (ReadResult.data [85, 79, 70, 70]).Fits := ⟨by decide, by decide⟩
  obtain ⟨l', hbefore⟩ :=
    run_beforeInput_incomplete (fun _ => 1) id (b := [85, 79, 70, 70]) (l := idle) rfl
    ⟨by decide, by decide⟩ (by decide) ⟨by decide, by decide⟩
  have hne : chatLine ≠ [] := by decide
  obtain ⟨blk', hblk, hiff⟩ := typedAlone_iff hfits hbefore hne (by decide)
  refine ⟨blk', hblk, hiff.mpr fun _ => ?_⟩
  exact ⟨by decide, by decide, by decide, by decide⟩

/-- An incomplete frame of twenty bytes is sent on with a line of ten. -/
theorem not_typedAlone :
    ¬∀ (slack : Slack) (pid : ℕ → ℕ) (ready : List ℕ) (server : ReadResult) (l l' : Loop)
    (blk blk' : Block) (line : Bytes), server.Fits →
      (beforeInput slack pid ready server).run l = (.ok (.input, blk), l') → line ≠ [] →
        line.length + 1 < maxline → lineIn blk (.data line) = some blk' → TypedAlone blk' line := by
  intro hall
  have hb : IsRead (List.replicate 20 120) := ⟨by decide, by decide⟩
  have hfits : (ReadResult.data (List.replicate 20 120)).Fits := ⟨by decide, by decide⟩
  obtain ⟨l', hbefore⟩ := run_beforeInput_incomplete (fun _ => 1) id (l := idle) rfl hb (by decide)
    ⟨by decide, by decide⟩
  have hline := hall (fun _ => 1) id _ _ idle l' _ _ chatLine hfits hbefore (by decide) (by decide)
    (lineIn_readBuf (by decide) (by decide))
  rw [typedAlone_cells_iff (by decide) (by decide)
    (length_leftBehind (by decide) (by decide))] at hline
  exact absurd ((hline rfl).text rfl) (by decide)

end ME2U.Client
