import ME2U.Client.Login

/-!
# The login of `hw1_client`

The repository has an earlier client as well. Its `login_proc` has a state of its own for sending
the name, and handles one state in an iteration; and it does so only when `select` has something to
report.

The strings that it builds are longer than their blocks. `calloc` may give more room than was asked
for, and `slack` is how many bytes more: they are zero, and can be written.

* `loginSelected`: what is done when `select` returns.
* `cstr_setStringEnding`: a frame is built where there is room for its ending and a NUL.
* `run_loginBegin`, `run_loginSelected_hello`: the greeting, and the reply to it.
-/

namespace ME2U.Hw1Client

open Client (Halt ReadResult ending length_ending mem run_mem_ok_bind
  run_mem_error_bind sizeModulus)

/-! ## State -/

/-- Where the login stands, by `login_state`. -/
inductive LoginState
  /-- 0 -/
  | start
  /-- 1: `U2EM` is to come. -/
  | hello
  /-- 2: the name is to be sent. -/
  | name
  /-- 3: `MAI` is to come. -/
  | approval
  /-- 4: `MOTD` is to come. -/
  | motd
  /-- 10 -/
  | done
  deriving DecidableEq

/-- The state of the client in `login_proc`; `buf` is cleared in every iteration. -/
structure Login where
  /-- `login_state` -/
  state : LoginState
  /-- What was written to the socket. -/
  sent : List Bytes
  /-- The pointers and lengths that were given for the terminal. -/
  printed : List (Block × ℕ)

/-- A computation of the login. -/
abbrev LoginM (α : Type) := Eff Login Halt α

/-- Source: `client.h` (line 17) -/
def maxline : ℕ := 5120

/-- Source: `client.h` (lines 29–35) -/
def clientLoginInit : Bytes := encode Verb.me2u
@[inherit_doc clientLoginInit] def serverLoginInit : Bytes := encode Verb.u2em
@[inherit_doc clientLoginInit] def clientSetUser : Bytes := encode Verb.iam
@[inherit_doc clientLoginInit] def serverUserTaken : Bytes := encode Verb.etaken
@[inherit_doc clientLoginInit] def serverUserApprove : Bytes := encode Verb.mai
@[inherit_doc clientLoginInit] def serverMotd : Bytes := encode Verb.motd

/-- Source: `client.h` (lines 25–26) -/
def cErrors : Bytes := 27 :: encode ['[', '1', ';', '3', '1', 'm']
@[inherit_doc cErrors] def cDefault : Bytes := 27 :: encode ['[', '0', 'm']

/-! ## Functions -/

/-- An assignment to `login_state`. -/
def goto (s : LoginState) : LoginM Unit := Eff.modify fun c => { c with state := s }

/-- `write(sockfd, bs, strlen(bs))` -/
def writeSock (bs : Bytes) : LoginM Unit := Eff.modify fun c => { c with sent := c.sent ++ [bs] }

/-- `write` of `n` bytes to the terminal, with the length as a `size_t`. -/
def print (p : Block) (n : ℤ) : LoginM Unit :=
  Eff.modify fun c => { c with printed := c.printed ++ [(p, (n % sizeModulus).toNat)] }

/-- `printf_error(stderr, "\n==>%s<<\n", s)`
Source: `client.c` `printf_error` (lines 39–46), `color_error` (lines 68–70), `color_reset` (lines
71–73) -/
def printfError (s : Bytes) : LoginM Unit := do
  let text := encode ['\n', '=', '=', '>'] ++ s ++ encode ['<', '<', '\n']
  print (textBlock cErrors 1) cErrors.length
  print (textBlock text 1) text.length
  print (textBlock cDefault 1) cDefault.length

/-- `CURRENT_USER_NAME`, a global of 20 bytes.
Source: `main.c` `main` (line 31) -/
def currentUserName (name : Bytes) : Except Fault Block :=
  memcpy (zeros 20) (textBlock name 1) (min 20 name.length)

/-- Source: `client.c` `startsWith` (lines 398–403) -/
def startsWith (str : Block) (pre : Bytes) : Except Fault Bool := do
  let lenStr ← strlen str
  if lenStr < pre.length then .ok false else strncmpEq str pre pre.length

section Login

variable (slack : ℕ)

/-- Source: `client.c` `get_string_without_ending` (lines 96–117) -/
def getStringWithoutEnding (str : Block) : Except Fault Block := do
  let n ← strlen str
  memcpy (calloc (n + slack)) str n

/-- Source: `client.c` `set_string_ending` (lines 119–125) -/
def setStringEnding (str : Block) : Except Fault Block := do
  let oldSize ← strlen str
  let toRet ← memcpy (calloc (oldSize + slack)) str oldSize
  store toRet oldSize (cells ending)

/-- From the start to the first `select`.
Source: `client.c` `login_proc` (lines 141–154) -/
def loginBegin : LoginM Unit := do
  let tempStr ← mem (setStringEnding slack (textBlock clientLoginInit 1))
  let s ← mem (cstr tempStr)
  writeSock s
  goto .hello

/-- Source: `client.c` `login_proc` (lines 180–188) -/
def sendName (userName : Block) : LoginM Unit := do
  let n ← mem (strlen userName)
  let tempStr ← mem (memcpy (calloc (n + clientSetUser.length + 5 + slack))
    (textBlock clientSetUser 1) 3)
  let tempStr ← mem (store tempStr 3 [some 32])
  let tempStr ← mem (store tempStr 4 (userName.take n))
  let tempStr ← mem (setStringEnding slack tempStr)
  let s ← mem (cstr tempStr)
  writeSock s
  goto .approval

/-- `buf` after a `read` into it. -/
def bufAfter : ReadResult → Block
  | .data b => textBlock b (maxline - b.length)
  | _ => textBlock [] maxline

/-- What `read` returns. -/
def count : ReadResult → ℤ
  | .data b => b.length
  | .eof => 0
  | .failed => -1

/-- The string that was read; at the end of the stream the client exits. -/
def readString (message : String) : ReadResult → LoginM Block
  | .eof => Eff.stop (.error message)
  | r => mem (getStringWithoutEnding slack (bufAfter r))

/-- What is done when `select` has not returned 0; `ready` says whether the socket is in `rset`, and
`r` is what a `read` from it returns.
Source: `client.c` `login_proc` (lines 156–238) -/
def loginSelected (userName : Block) (ready : Bool) (r : ReadResult) : LoginM Unit := do
  let c ← Eff.get
  match c.state, ready with
  | .hello, true => do
      let tempStr ← readString slack "Server exited prevaturely while in hello procedure" r
      let s ← mem (cstr tempStr)
      if s.length = 0 then printfError s
      else do
        let hello ← mem (startsWith tempStr serverLoginInit)
        if hello then goto .name
        else Eff.stop (.error "Expected server hello, got something else")
  | .name, _ => sendName slack userName
  | .approval, true => do
      let tempStr ← readString slack
        "Server exited prevaturely while in username approval procedure" r
      let taken ← mem (startsWith tempStr serverUserTaken)
      if taken then Eff.stop (.error "User name is taken")
      else do
        let approved ← mem (startsWith tempStr serverUserApprove)
        if approved then goto .motd
        else do
          let n ← mem (strlen tempStr)
          if n = 0 then pure ()
          else Eff.stop (.error "Invalid systex on username approval notice")
  | .motd, true => do
      let tempStr ← readString slack "Server exited prevaturely before MOTD" r
      let n ← mem (strlen tempStr)
      if n = 0 then pure ()
      else do
        let isMotd ← mem (startsWith tempStr serverMotd)
        if isMotd then do
          print (tempStr.drop (serverMotd.length + 1)) (count r - serverMotd.length + 1)
          goto .done
        else Eff.stop (.error "Invalid systex on MOTD")
  | _, _ => pure ()

/-- Whether an iteration in which the socket is ready reads from it. -/
def Login.reads (c : Login) : Bool := c.state = .hello || c.state = .approval || c.state = .motd

end Login

/-! ## The greeting -/

section Greeting

variable {slack : ℕ}

/-- The copy of a text in a block of its length and the room behind that. -/
theorem memcpy_room (str : Bytes) (k : ℕ) :
    memcpy (calloc (str.length + slack)) (textBlock str k) str.length =
      .ok (textBlock str slack) := by
  have hroom : str.length + slack - str.length = slack := by omega
  rw [textBlock, memcpy_calloc rfl (Nat.le_add_right _ _), hroom]

/-- The string as it was received, in a block of its own. -/
theorem getStringWithoutEnding_textBlock {str : Bytes} (h0 : 0 ∉ str) {k : ℕ} (hk : k ≠ 0) :
    getStringWithoutEnding slack (textBlock str k) = .ok (textBlock str slack) := by
  unfold getStringWithoutEnding
  rw [strlen_textBlock h0 hk]
  exact memcpy_room str k

/-- **A frame** is built where there is room for its ending and a NUL behind the block. -/
theorem cstr_setStringEnding (slack : ℕ) {str : Bytes} (h0 : 0 ∉ str) {k : ℕ} (hk : k ≠ 0) :
    (setStringEnding slack (textBlock str k) >>= cstr) =
      if 5 ≤ slack then .ok (str ++ ending) else .error .outOfBounds := by
  unfold setStringEnding
  rw [strlen_textBlock h0 hk]
  simp only [bind, Except.bind, memcpy_room]
  by_cases hroom : 4 ≤ slack
  · obtain ⟨j, rfl⟩ := Nat.exists_eq_add_of_le hroom
    have hstore : store (textBlock str (4 + j)) str.length (cells ending) =
        .ok (textBlock (str ++ ending) j) := by
      rw [textBlock, zeros_add, store_append (length_cells str).symm (by simp [length_ending]),
        textBlock, cells_append, List.append_assoc]
    have hfree : 0 ∉ str ++ ending := List.not_mem_append h0 (by decide)
    rw [hstore]
    dsimp only
    cases j with
    | zero =>
        rw [if_neg (by omega)]
        exact cstr_cells_outOfBounds hfree
    | succ j =>
        rw [if_pos (by omega)]
        exact cstr_textBlock hfree (Nat.succ_ne_zero j)
  · rw [store_outOfBounds, if_neg (by omega)]
    rw [length_textBlock, length_cells, length_ending]
    omega

/-- Whether a string starts with another. -/
theorem startsWith_textBlock {str pre : Bytes} (h0 : 0 ∉ str) (hpre : 0 ∉ pre)
    {k : ℕ} (hk : k ≠ 0) :
    startsWith (textBlock str k) pre = .ok (decide (pre <+: str)) := by
  have hlen := strlen_textBlock h0 hk
  obtain ⟨j, rfl⟩ := Nat.exists_eq_succ_of_ne_zero hk
  unfold startsWith
  rw [hlen]
  show (if str.length < pre.length then (.ok false : Except Fault Bool) else _) = _
  by_cases hshort : str.length < pre.length
  · have hno : ¬pre <+: str := fun h => absurd h.length_le (Nat.not_le.mpr hshort)
    rw [if_pos hshort, decide_eq_false hno]
  · rw [if_neg hshort, strncmpEq_textBlock hpre]

/-- The greeting. -/
def me2uFrame : Bytes := clientLoginInit ++ ending

/-- **The greeting is sent** where there is room for it. -/
theorem run_loginBegin (slack : ℕ) (c : Login) : (loginBegin slack).run c =
    if 5 ≤ slack then (.ok (), { c with state := .hello, sent := c.sent ++ [me2uFrame] })
    else (.error (.fault .outOfBounds), c) := by
  have hfree : (0 : UInt8) ∉ clientLoginInit := by decide
  have hframe := cstr_setStringEnding slack hfree Nat.one_ne_zero
  unfold loginBegin
  cases hset : setStringEnding slack (textBlock clientLoginInit 1) with
  | error f =>
      rw [hset] at hframe
      split_ifs at hframe with hslack
      · cases hframe
      · cases hframe
        rw [if_neg hslack, run_mem_error_bind]
  | ok tempStr =>
      rw [hset] at hframe
      have hcstr : cstr tempStr = if 5 ≤ slack then .ok me2uFrame else .error .outOfBounds := hframe
      rw [run_mem_ok_bind, hcstr]
      split_ifs
      · rfl
      · rfl

/-- The reply to it moves the login on; nothing is sent. -/
theorem run_loginSelected_hello {c : Login} (hc : c.state = .hello) (hslack : slack ≠ 0)
    (userName : Block) :
    (loginSelected slack userName true (.data (serverLoginInit ++ ending))).run c =
      (.ok (), { c with state := .name }) := by
  have hget : getStringWithoutEnding slack (bufAfter (.data (serverLoginInit ++ ending))) =
      .ok (textBlock (serverLoginInit ++ ending) slack) :=
    getStringWithoutEnding_textBlock (by decide) (by decide)
  have hcstr : cstr (textBlock (serverLoginInit ++ ending) slack) =
      .ok (serverLoginInit ++ ending) :=
    cstr_textBlock (by decide) hslack
  have hstarts : startsWith (textBlock (serverLoginInit ++ ending) slack)
      serverLoginInit = .ok true := by
    rw [startsWith_textBlock (by decide) (by decide) hslack]
    rfl
  unfold loginSelected
  rw [Eff.run_get_bind, hc]
  dsimp only [readString]
  rw [hget, run_mem_ok_bind, hcstr, run_mem_ok_bind, if_neg (by decide), hstarts, run_mem_ok_bind,
    if_pos rfl]
  rfl

end Greeting

end ME2U.Hw1Client
