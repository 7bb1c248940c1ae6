import ME2U.Client.Input
import ME2U.Hw1Client.Login

/-!
# The chat of `hw1_client`

`regular_chat` of the earlier client takes what one `read` returns for one message. From what it
prints of `EDNE` and `UOFF` it leaves out the last four bytes, and its login prints from the message
of the day three bytes less than were read, from behind the verb and a space. The lengths are
differences of numbers without a sign: they are right for a whole frame, if at all.

* `chatIteration`: one iteration of `regular_chat`.
* `InChunk`: a length that does not wrap around, and bytes of the text that was read.
* `printsInside_iff`: the chunks for which that is so of what is printed.
-/

namespace ME2U.Hw1Client

open Client (Halt ReadResult ending length_ending mem run_mem_ok_bind run_mem_error_bind sizeModulus
  helpString toFrame userHelp userListu userChat userLogout)

/-! ## State -/

/-- What is given to `write` for the terminal. -/
inductive Output
  /-- A string, in its length. -/
  | text (s : Bytes)
  /-- What is at a pointer, in a length that was computed. -/
  | bytes (p : Block) (n : ℤ)

/-- The state of the client in `regular_chat`; `buf` is cleared in every iteration. -/
structure Chat where
  /-- `stdineof`; set where the socket is shut down as well. -/
  stdineof : Bool
  /-- The pointers and lengths that were given for the socket. -/
  sent : List (Block × ℕ)
  printed : List Output

/-- A computation of the chat. -/
abbrev ChatM (α : Type) := Eff Chat Halt α

/-- Source: `client.h` (lines 37–48) -/
def clientListUser : Bytes := encode Verb.listu
@[inherit_doc clientListUser] def serverListUser : Bytes := encode Verb.utsil
@[inherit_doc clientListUser] def confirmMsgTo : Bytes := encode Verb.ot
@[inherit_doc clientListUser] def msgFrom : Bytes := encode Verb.fromUser
@[inherit_doc clientListUser] def confirmMsgFrom : Bytes := encode Verb.morf
@[inherit_doc clientListUser] def noUsr : Bytes := encode Verb.edne
@[inherit_doc clientListUser] def clientBye : Bytes := encode Verb.bye
@[inherit_doc clientListUser] def serverByeAck : Bytes := encode Verb.eyb
@[inherit_doc clientListUser] def serverByeBrod : Bytes := encode Verb.uoff

/-! ## Functions -/

/-- `write` to the terminal. -/
def output (o : Output) : ChatM Unit := Eff.modify fun c => { c with printed := c.printed ++ [o] }

/-- `write` of `n` bytes to the socket. Behind `shutdown` it raises `SIGPIPE`, and nobody handles
that. -/
def send (p : Block) (n : ℕ) : ChatM Unit := do
  let c ← Eff.get
  if c.stdineof then Eff.stop .sigpipe
  else Eff.modify fun c => { c with sent := c.sent ++ [(p, n)] }

/-- `stdineof = 1` and `shutdown`. -/
def shutInput : ChatM Unit := Eff.modify fun c => { c with stdineof := true }

/-- `printf_error(stderr, text)`
Source: `client.c` `printf_error` (lines 39–46) -/
def outputError (text : Bytes) : ChatM Unit := do
  output (.text cErrors)
  output (.text text)
  output (.text cDefault)

/-- `memcpy(p + strlen(p), s, strlen(s))` -/
def copyBehind (p : Block) (s : Bytes) : Except Fault Block := do
  let i ← strlen p
  store p i (cells s)

/-- The loop over the tokens of `UTSIL`. -/
def outputLines : List Bytes → ChatM Unit
  | [] => pure ()
  | userPtr :: rest => do
      output (.text userPtr)
      output (.text [10])
      outputLines rest

section Chunk

variable (slack : ℕ)

/-- What is done for `FROM`: the text is printed, and the reply sent.
Source: `client.c` `regular_chat` (lines 307–319) -/
def fromUser (buf : Block) : ChatM Unit := do
  let n ← mem (strlen buf)
  let bufCpy ← mem (memcpy (calloc (n + slack)) buf n)
  let toks ← mem (cstr (bufCpy.drop (msgFrom.length + 1)))
  let text ← mem (cstr (buf.drop msgFrom.length))
  output (.text text)
  match (strtok 32 toks).head? with
  | none => Eff.stop (.fault .nullPointer)
  | some msgUser => do
      let msgToSent := calloc (confirmMsgFrom.length + msgUser.length + 5 + slack)
      let msgToSent ← mem (store msgToSent 0 (cells confirmMsgFrom))
      let msgToSent ← mem (copyBehind msgToSent [32])
      let msgToSent ← mem (copyBehind msgToSent msgUser)
      let msgToSent ← mem (copyBehind msgToSent ending)
      let n ← mem (strlen msgToSent)
      send msgToSent n

/-- What is printed of a name behind a verb: four bytes less than the string there has. The length
is a `size_t`. -/
def outputName (verb : Bytes) (buf : Block) : ChatM Unit := do
  let n ← mem (strlen (buf.drop verb.length))
  output (.bytes (buf.drop verb.length) (n - 4))

/-- What is done with what was read from the socket; whether `regular_chat` returns.
Source: `client.c` `regular_chat` (lines 290–338) -/
def serverChunk (buf : Block) : ChatM Bool := do
  let n ← mem (strlen buf)
  let blank ← if n = 0 then pure true else mem (startsWith buf [13, 10])
  let blank ← if blank then pure true else mem (startsWith buf ending)
  if blank then pure false
  else do
  let utsil ← mem (startsWith buf serverListUser)
  if utsil then do
    let list ← mem (cstr (buf.drop serverListUser.length))
    outputLines (strtok 32 list)
    pure false
  else do
  let ot ← mem (startsWith buf confirmMsgTo)
  if ot then do
    output (.text (27 :: encode (String.toList "[1;33m MSG sent successfully.\x1b[0m\n")))
    pure false
  else do
  let isFrom ← mem (startsWith buf msgFrom)
  if isFrom then do
    fromUser slack buf
    pure false
  else do
  let edne ← mem (startsWith buf noUsr)
  if edne then do
    output (.text (encode (String.toList "No, user = ")))
    outputName noUsr buf
    output (.text (encode (String.toList " exists.\n")))
    pure false
  else do
  let eyb ← mem (startsWith buf serverByeAck)
  if eyb then pure true
  else do
  let uoff ← mem (startsWith buf serverByeBrod)
  if uoff then do
    output (.text (encode (String.toList "Client closed with the name of = ")))
    outputName serverByeBrod buf
    pure false
  else do
    let s ← mem (cstr buf)
    outputError (encode (String.toList "Server sent >>") ++ s ++ encode (String.toList "<<\n"))
    Eff.stop (.error "Server sent msg that cannot be understood")

/-- What is done with what was read from the terminal.
Source: `client.c` `regular_chat` (lines 347–383), `print_client_help` (lines 389–396) -/
def inputChunk (buf : Block) : ChatM Unit := do
  let n ← mem (strlen buf)
  if n = 0 then pure ()
  else do
  let slash ← mem (strncmpEq buf [47] 1)
  if ¬slash then
    outputError (encode
      (String.toList "You did not use the right format! Type /help to see suggestions\n"))
  else do
  let help ← mem (startsWith buf userHelp)
  if help then output (.text helpString)
  else do
  let listu ← mem (startsWith buf userListu)
  if listu then do
    let p ← mem (setStringEnding slack (textBlock clientListUser 1))
    send p (clientListUser.length + 4)
  else do
  let chat ← mem (startsWith buf userChat)
  if chat then do
    let newStr ← mem (toFrame (fun _ => slack) (buf.drop userChat.length))
    send (textBlock newStr 1) newStr.length
  else do
  let logout ← mem (startsWith buf userLogout)
  if logout then do
    let p ← mem (setStringEnding slack (textBlock clientBye 1))
    send p (clientBye.length + 4)
    shutInput
  else do
    shutInput
    Eff.stop (.error "Client sent msg that cannot be understood")

/-- One iteration in which `select` has not returned 0: whether the socket and the terminal are in
`rset`, and what a `read` from each returns. The result is whether `regular_chat` returns.
Source: `client.c` `regular_chat` (lines 272–387) -/
def chatIteration (sockReady inputReady : Bool) (r line : ReadResult) : ChatM Bool := do
  let c ← Eff.get
  if sockReady then
    match r with
    | .eof =>
        if c.stdineof then pure true
        else Eff.stop (.error "chat procedure: server terminated prematurely")
    | r => serverChunk slack (bufAfter r)
  else if inputReady then
    match line with
    | .eof => do
        shutInput
        pure false
    | line => do
        inputChunk slack (bufAfter line)
        pure false
  else pure false

end Chunk

/-! ## Lengths -/

/-- The length `n`, computed without a bound, is the same as a `size_t`, and so many bytes at `p`
are a part of the text of `b`. -/
def InChunk (b : Bytes) (p : Block) (n : ℤ) : Prop :=
  0 ≤ n ∧ n < sizeModulus ∧
    ∃ x y z rest, b = x ++ (y ++ z) ∧ p = cells (y ++ z) ++ rest ∧ (y.length : ℤ) = n

/-- When `read` returns the chunk in `regular_chat`, every length that is computed is right. -/
def ChatPrintsInside (slack : ℕ) (b : Bytes) : Prop :=
  ∀ inputReady line c, ∃ returns printed,
    (chatIteration slack true inputReady (.data b) line).run c =
      (.ok returns, { c with printed := c.printed ++ printed }) ∧
    ∀ p n, .bytes p n ∈ printed → InChunk b p n

/-- When `read` returns the chunk in state 4 of the login, the length is
`n - strlen(SERVER_MOTD) + 1`, and it is right. -/
def LoginPrintsInside (slack : ℕ) (b : Bytes) : Prop :=
  ∀ userName c, c.state = .motd → ∃ p n,
    (loginSelected slack userName true (.data b)).run c =
      (.ok (), { c with state := .done, printed := c.printed ++ [(p, n)] }) ∧
    (n : ℤ) = count (.data b) - serverMotd.length + 1 ∧ InChunk b p n

/-- The three places at which a length is computed. -/
def PrintsInside (slack : ℕ) (b : Bytes) : Prop :=
  (noUsr <+: b ∨ serverByeBrod <+: b → ChatPrintsInside slack b) ∧
    (serverMotd <+: b → LoginPrintsInside slack b)

section Prints

variable {slack k : ℕ}

/-- A text that starts with one verb starts with no other. -/
theorem startsWith_others {verb t : Bytes} (h0 : 0 ∉ verb ++ t) (hk : k ≠ 0) {others : List Bytes}
    (hapart : ∀ w ∈ others, 0 ∉ w ∧ ¬w <+: verb ∧ ¬verb <+: w) :
    ∀ w ∈ others, startsWith (textBlock (verb ++ t) k) w = .ok false := by
  intro w hw
  obtain ⟨hfree, hshort, hlong⟩ := hapart w hw
  have hno : ¬w <+: verb ++ t := by
    intro h
    rcases List.prefix_or_prefix_of_prefix h (List.prefix_append verb t) with hpre | hpre
    · exact hshort hpre
    · exact hlong hpre
  rw [startsWith_textBlock h0 hfree hk, decide_eq_false hno]

/-- The verb of a message is recognised. -/
theorem startsWith_verb {verb t : Bytes} (h0 : 0 ∉ verb ++ t) (hk : k ≠ 0) :
    startsWith (textBlock (verb ++ t) k) verb = .ok true := by
  have hverb : 0 ∉ verb := fun h => h0 (List.mem_append_left t h)
  rw [startsWith_textBlock h0 hverb hk, decide_eq_true (List.prefix_append verb t)]

theorem run_output (o : Output) (c : Chat) :
    (output o).run c = (.ok (), { c with printed := c.printed ++ [o] }) := rfl

/-- What stands behind the verb is printed, without the last four bytes. -/
theorem run_outputName {verb t : Bytes} (h0 : 0 ∉ verb ++ t) (hk : k ≠ 0) (c : Chat) :
    (outputName verb (textBlock (verb ++ t) k)).run c =
      (.ok (), { c with printed := c.printed ++ [.bytes (textBlock t k) (t.length - 4)] }) := by
  have ht : 0 ∉ t := fun h => h0 (List.mem_append_right verb h)
  unfold outputName
  rw [drop_textBlock, strlen_textBlock ht hk]
  rfl

/-- `EDNE` is behind the tests of three other verbs. -/
theorem run_serverChunk_edne {t : Bytes} (h0 : 0 ∉ noUsr ++ t) (hk : k ≠ 0) (c : Chat) :
    (serverChunk slack (textBlock (noUsr ++ t) k)).run c = (.ok false,
      { c with
        printed := c.printed ++ [.text (encode (String.toList "No, user = ")),
          .bytes (textBlock t k) (t.length - 4),
              .text (encode (String.toList " exists.\n"))] }) := by
  have hlen : (noUsr ++ t).length ≠ 0 := by
    rw [List.length_append]
    exact Nat.ne_of_gt (Nat.add_pos_left (by decide) _)
  have hothers : ∀ w ∈ [[13, 10], ending, serverListUser, confirmMsgTo, msgFrom],
      startsWith (textBlock (noUsr ++ t) k) w = .ok false := startsWith_others h0 hk (by decide)
  simp only [List.forall_mem_cons] at hothers
  obtain ⟨hcrlf, hending, hutsil, hot, hfrom, -⟩ := hothers
  unfold serverChunk
  rw [strlen_textBlock h0 hk, run_mem_ok_bind, if_neg hlen, hcrlf, run_mem_ok_bind]
  simp only [Bool.false_eq_true, if_false, hending, hutsil, hot, hfrom, startsWith_verb h0 hk,
    run_mem_ok_bind, if_true]
  rw [Eff.run_bind_ok (run_output _ c), Eff.run_bind_ok (run_outputName h0 hk _),
    Eff.run_bind_ok (run_output _ _)]
  simp

/-- `UOFF` is behind the tests of all others. -/
theorem run_serverChunk_uoff {t : Bytes} (h0 : 0 ∉ serverByeBrod ++ t) (hk : k ≠ 0) (c : Chat) :
    (serverChunk slack (textBlock (serverByeBrod ++ t) k)).run c = (.ok false,
      { c with
        printed := c.printed ++ [.text (encode (String.toList "Client closed with the name of = ")),
          .bytes (textBlock t k) (t.length - 4)] }) := by
  have hlen : (serverByeBrod ++ t).length ≠ 0 := by
    rw [List.length_append]
    exact Nat.ne_of_gt (Nat.add_pos_left (by decide) _)
  have hothers : ∀ w ∈ [[13, 10], ending, serverListUser, confirmMsgTo, msgFrom,
    noUsr, serverByeAck],
      startsWith (textBlock (serverByeBrod ++ t) k) w = .ok false :=
    startsWith_others h0 hk (by decide)
  simp only [List.forall_mem_cons] at hothers
  obtain ⟨hcrlf, hending, hutsil, hot, hfrom, hedne, heyb, -⟩ := hothers
  unfold serverChunk
  rw [strlen_textBlock h0 hk, run_mem_ok_bind, if_neg hlen, hcrlf, run_mem_ok_bind]
  simp only [Bool.false_eq_true, if_false, hending, hutsil, hot, hfrom, hedne, heyb,
    startsWith_verb h0 hk, run_mem_ok_bind, if_true]
  rw [Eff.run_bind_ok (run_output _ c), Eff.run_bind_ok (run_outputName h0 hk _)]
  simp

/-- Four bytes less than what is behind a verb are inside of it where there are so many. -/
theorem inChunk_name_iff {verb t : Bytes} (hlen : (verb ++ t).length < maxline) :
    InChunk (verb ++ t) (textBlock t k) (t.length - 4) ↔ 4 ≤ t.length := by
  rw [List.length_append] at hlen
  constructor
  · rintro ⟨hn, -⟩
    omega
  · intro h4
    refine ⟨by omega, ?_, verb, t.take (t.length - 4), t.drop (t.length - 4), zeros k, ?_, ?_, ?_⟩
    · unfold maxline at hlen
      unfold sizeModulus
      omega
    · rw [List.take_append_drop]
    · rw [List.take_append_drop]
      rfl
    · rw [List.length_take]
      omega

/-- As many bytes of a text as lie at a pointer lie before the NUL behind it. -/
theorem length_le_of_cells_append_eq {y t : Bytes} {q : Block} (hy : 0 ∉ y) (ht : 0 ∉ t)
    (h : cells y ++ q = textBlock t k) : y.length ≤ t.length := by
  by_cases hk : k = 0
  · have hlen := congrArg List.length h
    rw [List.length_append, length_cells, length_textBlock, hk] at hlen
    omega
  · have hcstr := cstr_cells_append_eq hy q
    rw [h, cstr_textBlock ht hk] at hcstr
    cases hq : cstr q with
    | error f =>
        rw [hq] at hcstr
        cases hcstr
    | ok r =>
        rw [hq] at hcstr
        rw [Except.ok.inj hcstr, List.length_append]
        exact Nat.le_add_right _ _

/-- What is printed of the message of the day goes beyond its text. -/
theorem not_inChunk_motd {t : Bytes} (h0 : 0 ∉ serverMotd ++ t) {n : ℤ}
    (hn : n = (serverMotd ++ t).length - serverMotd.length + 1) :
    ¬InChunk (serverMotd ++ t)
    ((textBlock (serverMotd ++ t) slack).drop (serverMotd.length + 1)) n := by
  rintro ⟨-, -, x, y, z, rest, hb, hp, hy⟩
  have ht : 0 ∉ t.drop 1 := fun h => h0 (List.mem_append_right _ (List.mem_of_mem_drop h))
  have hyfree : 0 ∉ y := fun h => h0 (hb ▸ List.mem_append_right x (List.mem_append_left z h))
  have hdrop : ∃ j, (textBlock t slack).drop 1 = textBlock (t.drop 1) j := by
    cases t with
    | nil =>
        exact ⟨slack - 1, List.drop_replicate⟩
    | cons a t => exact ⟨slack, rfl⟩
  obtain ⟨j, hj⟩ := hdrop
  rw [← List.drop_drop, drop_textBlock, hj, cells_append, List.append_assoc] at hp
  have hle := length_le_of_cells_append_eq hyfree ht hp.symm
  rw [List.length_drop] at hle
  rw [List.length_append] at hn
  omega

/-- In `regular_chat` it is a matter of what one chunk adds to what was printed. -/
theorem chatPrintsInside_iff {b : Bytes} {out : List Output}
    (hrun : ∀ c, (serverChunk slack (bufAfter (.data b))).run c =
      (.ok false, { c with printed := c.printed ++ out })) :
    ChatPrintsInside slack b ↔ ∀ p n, .bytes p n ∈ out → InChunk b p n := by
  have hchunk : ∀ inputReady line c, (chatIteration slack true inputReady (.data b) line).run c =
      (.ok false, { c with printed := c.printed ++ out }) := fun _ _ c => hrun c
  constructor
  · intro h
    obtain ⟨returns, printed, heq, hin⟩ := h false .eof ⟨false, [], []⟩
    rw [hchunk] at heq
    have hprinted : [] ++ out = [] ++ printed := congrArg Chat.printed (congrArg Prod.snd heq)
    obtain rfl : out = printed := hprinted
    exact hin
  · intro h inputReady line c
    exact ⟨false, out, hchunk inputReady line c, h⟩

/-- Both verbs leave out the last four bytes. -/
theorem chatPrintsInside_verb_iff {verb t : Bytes} (hverb : verb = noUsr ∨ verb = serverByeBrod)
    (h0 : 0 ∉ verb ++ t) (hlen : (verb ++ t).length < maxline) :
    ChatPrintsInside slack (verb ++ t) ↔ 4 ≤ t.length := by
  have hk : maxline - (verb ++ t).length ≠ 0 := by omega
  rw [← inChunk_name_iff (k := maxline - (verb ++ t).length) hlen]
  rcases hverb with rfl | rfl
  · rw [chatPrintsInside_iff (run_serverChunk_edne h0 hk)]
    simp
  · rw [chatPrintsInside_iff (run_serverChunk_uoff h0 hk)]
    simp

/-- In the login it never is so. -/
theorem not_loginPrintsInside {t : Bytes} (h0 : 0 ∉ serverMotd ++ t)
    (hlen : (serverMotd ++ t).length < maxline) : ¬LoginPrintsInside slack (serverMotd ++ t) := by
  intro h
  obtain ⟨p, n, hrun, hn, hin⟩ := h [] ⟨.motd, [], []⟩ rfl
  have hk : maxline - (serverMotd ++ t).length ≠ 0 := by omega
  have hget : getStringWithoutEnding slack (bufAfter (.data (serverMotd ++ t))) =
      .ok (textBlock (serverMotd ++ t) slack) := getStringWithoutEnding_textBlock h0 hk
  have hp : p = (textBlock (serverMotd ++ t) slack).drop (serverMotd.length + 1) := by
    unfold loginSelected at hrun
    rw [Eff.run_get_bind] at hrun
    dsimp only [readString] at hrun
    rw [hget, run_mem_ok_bind] at hrun
    by_cases hslack : slack = 0
    · -- the copy has no end
      rw [strlen, cstr_textBlock_eq h0, if_neg (not_not.mpr hslack)] at hrun
      cases hrun
    · rw [strlen_textBlock h0 hslack, run_mem_ok_bind, startsWith_verb h0 hslack] at hrun
      split_ifs at hrun with hempty
      · cases hrun
      · have hprinted := congrArg Login.printed (congrArg Prod.snd hrun)
        exact (Prod.mk.inj (List.singleton_inj.mp hprinted)).1.symm
  subst hp
  exact not_inChunk_motd h0 hn hin

/-- **What is printed** of a chunk is right, unless the chunk starts with `MOTD`, or has less than
four bytes behind `EDNE` or `UOFF`. -/
theorem printsInside_iff (slack : ℕ) {b : Bytes} (h0 : 0 ∉ b) (hlen : b.length < maxline) :
    PrintsInside slack b ↔
      ¬serverMotd <+: b ∧ (noUsr <+: b ∨ serverByeBrod <+: b → 8 ≤ b.length) := by
  have hmotd : (serverMotd <+: b → LoginPrintsInside slack b) ↔ ¬serverMotd <+: b := by
    constructor
    · intro h hpre
      obtain ⟨t, rfl⟩ := hpre
      exact not_loginPrintsInside h0 hlen (h (List.prefix_append _ t))
    · intro h hpre
      exact absurd hpre h
  have hchat : ∀ verb, verb = noUsr ∨ verb = serverByeBrod → verb <+: b →
      (ChatPrintsInside slack b ↔ 8 ≤ b.length) := by
    rintro verb hverb ⟨t, rfl⟩
    have hfour : verb.length = 4 := by rcases hverb with rfl | rfl <;> decide
    rw [chatPrintsInside_verb_iff hverb h0 hlen, List.length_append]
    omega
  have hverbs : (noUsr <+: b ∨ serverByeBrod <+: b → ChatPrintsInside slack b) ↔
      (noUsr <+: b ∨ serverByeBrod <+: b → 8 ≤ b.length) := by
    refine imp_congr_right ?_
    rintro (hpre | hpre)
    · exact hchat noUsr (.inl rfl) hpre
    · exact hchat serverByeBrod (.inr rfl) hpre
  unfold PrintsInside
  rw [hmotd, hverbs]
  exact and_comm

/-- `UOFF a` is printed right as a whole frame, and not where the read ends before the ending. -/
theorem printsInside_uoff : PrintsInside 8 (serverByeBrod ++ [32, 97] ++ ending) ∧
    ¬PrintsInside 8 (serverByeBrod ++ [32, 97]) :=
  ⟨(printsInside_iff 8 (by decide) (by decide)).mpr (by decide),
    (printsInside_iff 8 (by decide) (by decide)).not.mpr (by decide)⟩

/-- A read that ends behind the verb of `EDNE`: the length is -4. -/
theorem not_printsInside :
    ¬∀ (slack : ℕ) (b : Bytes), 0 ∉ b → b ≠ [] → b.length < maxline → PrintsInside slack b := by
  intro h
  have hedne := h 8 noUsr (by decide) (by decide) (by decide)
  have hprints : ChatPrintsInside 8 (noUsr ++ []) := hedne.1 (.inl (List.prefix_refl _))
  rw [chatPrintsInside_verb_iff (.inl rfl) (by decide) (by decide)] at hprints
  exact absurd hprints (by decide)

end Prints

end ME2U.Hw1Client
