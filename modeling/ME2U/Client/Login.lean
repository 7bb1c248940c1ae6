import ME2U.Client.Chat

/-!
# The login of the client

`login_proc` sends `ME2U`, waits for `U2EM`, sends the name, and waits for `MAI` and then `MOTD`.
Its loop clears `read_buf` and waits in `select`; one case falls through to another there: behind
the read that completes `MAI`, the next read goes to a `read_buf` that was not cleared.

`loginRead` is what is done from one `read` to the next. An iteration in which the socket has
nothing to be read changes nothing.

* `nameSurvives_iff`: which names are sent as they were given.
* `run_loginRead`: a read of bytes over what `read_buf` holds.
* `run_loginRead_none`, `run_loginRead_some`: what is done where no frame is complete, and where one
  is; `run_loginString_hello`, `run_loginString_approval`, `run_loginString_motd`: what is done with
  the frame that each state waits for.
-/

namespace ME2U.Client

/-! ## State -/

/-- Where the login stands, by `login_state`; no `read` is reached in state 2. -/
inductive LoginState
  /-- 0 -/
  | start
  /-- 1: `U2EM` is to come. -/
  | hello
  /-- 3: `MAI` is to come. -/
  | approval
  /-- 4: `MOTD` is to come. -/
  | motd
  /-- 10 -/
  | done
  deriving DecidableEq

/-- The state of the client in `login_proc`. -/
structure Login where
  /-- The receive buffer. -/
  buf : RecvBuf
  /-- `read_buf` -/
  readBuf : Block
  /-- `login_state` -/
  state : LoginState
  /-- What was written to the socket. -/
  sent : List Bytes
  /-- The pointers and lengths that `write` was given for the terminal. -/
  printed : List (Block × ℕ)

/-- A computation of the login. -/
abbrev LoginM (α : Type) := Eff Login Halt α

/-- What `read` returns. -/
inductive ReadResult
  /-- Bytes, at least one. -/
  | data (b : Bytes)
  /-- Zero, at the end of the stream. -/
  | eof
  /-- Minus one. -/
  | failed
  deriving DecidableEq

/-- What `read` into `read_buf`, of `MAXLINE` bytes, can return. -/
def ReadResult.Fits : ReadResult → Prop
  | .data b => b ≠ [] ∧ b.length ≤ maxline
  | _ => True

/-- Source: `client.h` (lines 26–32) -/
def serverLoginInit : Bytes := encode Verb.u2em
@[inherit_doc serverLoginInit] def clientSetUser : Bytes := encode Verb.iam
@[inherit_doc serverLoginInit] def serverUserTaken : Bytes := encode Verb.etaken
@[inherit_doc serverLoginInit] def serverUserApprove : Bytes := encode Verb.mai
@[inherit_doc serverLoginInit] def serverMotd : Bytes := encode Verb.motd
@[inherit_doc serverLoginInit] def usernameTaken : Bytes :=
  encode ['U', 's', 'e', 'r', 'n', 'a', 'm', 'e', ' ', 'T', 'a', 'k', 'e', 'n']

/-- `CURRENT_USER_NAME`, a global of 20 bytes.
Source: `client.c` `main` (line 37) -/
def currentUserName (name : Bytes) : Except Fault Block :=
  memcpy (zeros 20) (textBlock name 1) (min 20 name.length)

/-! ## Functions -/

/-- `memset(read_buf, 0, MAXLINE)` at the top of the loop. -/
def clear : LoginM Unit := Eff.modify fun c => { c with readBuf := zeros maxline }

/-- An assignment to `login_state`. -/
def goto (s : LoginState) : LoginM Unit := Eff.modify fun c => { c with state := s }

/-- `write(sockfd, bs, strlen(bs))` -/
def writeSock (bs : Bytes) : LoginM Unit := Eff.modify fun c => { c with sent := c.sent ++ [bs] }

/-- How many values a `size_t` has, 2^64. -/
def sizeModulus : ℤ := 18446744073709551616

/-- `write(fileno(stdout), p, n)`, with the length as a `size_t`. -/
def print (p : Block) (n : ℤ) : LoginM Unit :=
  Eff.modify fun c => { c with printed := c.printed ++ [(p, (n % sizeModulus).toNat)] }

/-- Source: `client.c` `send_login_msg` (lines 538–541) -/
def sendLoginMsg : LoginM Unit := writeSock (encode Verb.me2u ++ ending)

/-- Source: `client.c` `send_username` (lines 424–435) -/
def sendUsername (userName : Block) : LoginM Unit := do
  let tempStr ← mem (memcpy (calloc 30) (textBlock clientSetUser 1) 3)
  let tempStr ← mem (store tempStr 3 [some 32])
  let n ← mem (strlen userName)
  let tempStr ← mem (store tempStr 4 (userName.take n))
  let tempStr ← mem (strcat tempStr (textBlock ending 1))
  let s ← mem (cstr tempStr)
  writeSock s

/-- From the start to the first `select`.
Source: `client.c` `login_proc` (lines 109–121) -/
def loginBegin : LoginM Unit := do
  clear
  sendLoginMsg
  goto .hello

/-- `read_buf` with the bytes read over what it held. -/
def fill (b : Bytes) : LoginM Unit := do
  let c ← Eff.get
  let blk ← mem (store c.readBuf 0 (cells b))
  Eff.modify fun c => { c with readBuf := blk }

/-- `process_string(read_buf)` -/
def takeString : LoginM (Option Block) := do
  let c ← Eff.get
  Eff.zoom Login.buf (fun s c => { c with buf := s }) Halt.fault (processString c.readBuf)

/-- What is done with a string, in each state.
Source: `client.c` `login_proc` (lines 130–143, 150–163, 170–178) -/
def loginString (userName : Block) (n : ℤ) (processStr : Block) : LoginM Unit := do
  let c ← Eff.get
  match c.state with
  | .hello => do
      let same ← mem (strcmpEq processStr (textBlock serverLoginInit 1))
      if same then do
        sendUsername userName
        goto .approval
        clear
      else Eff.stop (.error "Expected Server Hello, got something else")
  | .approval => do
      let taken ← mem (strcmpEq processStr (textBlock serverUserTaken 1))
      if taken then do
        print (textBlock usernameTaken 1) usernameTaken.length
        Eff.stop (.exit 1)
      else do
        let approved ← mem (strcmpEq processStr (textBlock serverUserApprove 1))
        -- falls through to the `read` of state 4, with `read_buf` as it is
        if approved then goto .motd
        else Eff.stop (.error "Invalid syntex on username approval notice")
  | .motd => do
      let isMotd ← mem (strncmpEq processStr serverMotd 4)
      if isMotd then do
        print (processStr.drop (serverMotd.length + 1)) (n - serverMotd.length + 1)
        goto .done
      else Eff.stop (.error "Invalid systex on MOTD")
  | _ => pure ()

/-- The text of the error at the end of the stream.
Source: `client.c` `login_proc` (lines 128, 148, 168) -/
def eofMessage : LoginState → String
  | .hello => "Server exited prematurely while in hello process"
  | .approval => "Server exited prematurely while username approval is in proces"
  | _ => "Server exited prevaturely before MOTD"

/-- From a `read` that returned `n`, with the bytes in place, to the next one. -/
def loginProcess (userName : Block) (n : ℤ) : LoginM Unit := do
  let processStr ← takeString
  match processStr with
  | none => clear
  | some processStr => loginString userName n processStr

/-- From one `read` to the next.
Source: `client.c` `login_proc` (lines 124–181) -/
def loginRead (userName : Block) : ReadResult → LoginM Unit
  | .eof => do
      let c ← Eff.get
      Eff.stop (.error (eofMessage c.state))
  | .failed => loginProcess userName (-1)
  | .data b => do
      fill b
      loginProcess userName b.length

/-! ## Reading over what is there -/

/-- The text in `read_buf` when `b` is read over `r`. -/
def laidOver (b r : Bytes) : Bytes := b ++ r.drop b.length

@[simp] theorem laidOver_nil (b : Bytes) : laidOver b [] = b := by simp [laidOver]

/-- Nothing of the old text is left where the new one is as long. -/
theorem laidOver_of_length_le {b r : Bytes} (h : r.length ≤ b.length) : laidOver b r = b := by
  rw [laidOver, List.drop_eq_nil_of_le h, List.append_nil]

/-- A read that is laid over another one has the length of the longer one. -/
theorem length_laidOver (b r : Bytes) : (laidOver b r).length = max b.length r.length := by
  rw [laidOver, List.length_append, List.length_drop]
  omega

/-- What is laid over a text with a NUL is a read again. -/
theorem IsRead.laidOver {b r : Bytes} (hb : IsRead b) (hr : IsRead r) : IsRead (laidOver b r) := by
  refine ⟨?_, ?_⟩
  · exact List.not_mem_append hb.1 fun h => hr.1 (List.mem_of_mem_drop h)
  · rw [length_laidOver]
    exact max_lt hb.2 hr.2

/-- A read that is stored over a string. -/
theorem store_cells_textBlock {b r : Bytes} {n : ℕ} (h : b.length ≤ r.length + n) :
    store (textBlock r n) 0 (cells b) =
      .ok (textBlock (laidOver b r) (r.length + n - (laidOver b r).length)) := by
  have hzeros : r.length + n - (laidOver b r).length = n - (b.length - r.length) := by
    rw [length_laidOver]
    omega
  have hdrop : (textBlock r n).drop b.length =
      cells (r.drop b.length) ++ zeros (n - (b.length - r.length)) := by
    rw [textBlock, List.drop_append, length_cells]
    simp [cells, zeros, List.map_drop]
  unfold store
  rw [length_textBlock, length_cells, if_pos (by omega), hzeros, Nat.zero_add, hdrop, laidOver]
  simp [textBlock]

/-- The read is laid over what was in `read_buf`. -/
theorem run_fill {c : Login} {r b : Bytes} (hread : c.readBuf = readBuf r) (hb : b.length < maxline)
    (hr : r.length < maxline) :
    (fill b).run c = (.ok (), { c with readBuf := readBuf (laidOver b r) }) := by
  have hstore := store_cells_textBlock (b := b) (r := r) (n := maxline - r.length) (by omega)
  rw [Nat.add_sub_cancel' hr.le, ← readBuf, ← readBuf] at hstore
  unfold fill
  rw [Eff.run_get_bind, hread, hstore, run_mem_ok_bind, Eff.run_modify]

/-- The string that is taken from a read. -/
theorem run_takeString {c : Login} {p t : Bytes} (hbuf : c.buf = .of p)
    (hread : c.readBuf = readBuf t)
    (hp : 0 ∉ p) (hlim : p.length < bufLimit) (ht : IsRead t) (hq : Manageable (p ++ t)) :
    takeString.run c =
      (.ok ((receive ending p t).1.map (textBlock · 4)),
        { c with buf := .of (receive ending p t).2 }) := by
  have hcall := run_processString_of_manageable hp ht hlim hq
  unfold takeString
  rw [Eff.run_get_bind, Eff.run_zoom, hbuf, hread, hcall]
  rfl

/-- **A read of bytes**: `process_string` gets the bytes read over what `read_buf` held. -/
theorem run_loginRead {c : Login} {p r b : Bytes} (hbuf : c.buf = .of p)
    (hread : c.readBuf = readBuf r)
    (hp : 0 ∉ p) (hlim : p.length < bufLimit) (hb : IsRead b) (hr : IsRead r)
    (hq : Manageable (p ++ laidOver b r)) (userName : Block) :
    (loginRead userName (.data b)).run c =
      (match (receive ending p (laidOver b r)).1 with
        | none => clear
        | some body => loginString userName b.length (textBlock body 4) : LoginM Unit).run
        { c with
          buf := .of (receive ending p (laidOver b r)).2
          readBuf := readBuf (laidOver b r) } := by
  unfold loginRead
  rw [Eff.run_bind_ok (run_fill hread hb.2 hr.2), loginProcess,
    Eff.run_bind_ok (run_takeString (c := { c with readBuf := readBuf (laidOver b r) })
      hbuf rfl hp hlim (hb.laidOver hr) hq)]
  cases (receive ending p (laidOver b r)).1 <;> rfl

/-- Where no frame is complete, the text is kept and the loop starts again. -/
theorem run_loginRead_none {c : Login} {p r b : Bytes} (hbuf : c.buf = .of p)
    (hread : c.readBuf = readBuf r) (hp : 0 ∉ p) (hlim : p.length < bufLimit) (hb : IsRead b)
    (hr : IsRead r) (hq : Manageable (p ++ laidOver b r)) (hopen : ¬ending <:+ p ++ laidOver b r)
    (userName : Block) :
    (loginRead userName (.data b)).run c =
      (.ok (), { c with buf := .of (p ++ laidOver b r), readBuf := readBuf [] }) := by
  rw [run_loginRead hbuf hread hp hlim hb hr hq, receive_of_not_isSuffix hopen]
  rfl

/-- Where a frame is complete, its body is acted on. -/
theorem run_loginRead_some {c : Login} {p r b body : Bytes} (hbuf : c.buf = .of p)
    (hread : c.readBuf = readBuf r) (hp : 0 ∉ p) (hlim : p.length < bufLimit) (hb : IsRead b)
    (hr : IsRead r) (hq : Manageable (p ++ laidOver b r))
    (hframe : p ++ laidOver b r = body ++ ending) (userName : Block) :
    (loginRead userName (.data b)).run c =
      (loginString userName b.length (textBlock body 4)).run
        { c with buf := .of [], readBuf := readBuf (laidOver b r) } := by
  rw [run_loginRead hbuf hread hp hlim hb hr hq, receive_of_isSuffix hframe]

/-- Where the text cannot be looked at, the client stops. -/
theorem run_loginRead_of_not {c : Login} {p r b : Bytes} (hbuf : c.buf = .of p)
    (hread : c.readBuf = readBuf r) (hp : 0 ∉ p) (hlim : p.length < bufLimit) (hb : IsRead b)
    (hr : IsRead r) (hq : ¬Manageable (p ++ laidOver b r)) (userName : Block) :
    ∃ e c', (loginRead userName (.data b)).run c = (.error e, c') := by
  obtain ⟨f, s, hcall⟩ := run_processString_of_not hp (hb.laidOver hr) hlim hq
  unfold loginRead
  rw [Eff.run_bind_ok (run_fill hread hb.2 hr.2), loginProcess]
  unfold takeString
  rw [Eff.bind_assoc, Eff.run_get_bind, Eff.run_zoom_bind_error (hbuf ▸ hcall)]
  exact ⟨_, _, rfl⟩

/-! ## The strings that the states wait for -/

/-- `strcmp` of a text with a literal compares the two. -/
theorem strcmpEq_literal {body lit : Bytes} (hbody : 0 ∉ body) (hlit : 0 ∉ lit) :
    strcmpEq (textBlock body 4) (textBlock lit 1) = .ok (body == lit) := by
  rw [strcmpEq_textBlock hbody hlit 4 0, if_neg (by simp)]

/-- The request that carries the name. -/
def iamFrame (name : Bytes) : Bytes := clientSetUser ++ 32 :: (name ++ ending)

/-- A name of up to 19 bytes is copied whole. -/
theorem currentUserName_eq {name : Bytes} (hlen : name.length ≤ 19) :
    currentUserName name = .ok (textBlock name (20 - name.length)) := by
  unfold currentUserName
  rw [Nat.min_eq_right (by omega)]
  exact memcpy_calloc rfl (by omega)

/-- A name of up to 19 bytes is sent as it is. -/
theorem run_sendUsername {name : Bytes} (h0 : 0 ∉ name) (hlen : name.length ≤ 19) (c : Login) :
    (sendUsername (textBlock name (20 - name.length))).run c =
      (.ok (), { c with sent := c.sent ++ [iamFrame name] }) := by
  have hiam : memcpy (calloc 30) (textBlock clientSetUser 1) 3 = .ok (textBlock clientSetUser 27) :=
    memcpy_calloc rfl (by decide)
  have hspace : store (textBlock clientSetUser 27) 3 [some 32] =
      .ok (textBlock (clientSetUser ++ [32]) 26) := rfl
  have hsplit : textBlock (clientSetUser ++ [32]) 26 =
      cells (clientSetUser ++ [32]) ++ (zeros name.length ++ zeros (26 - name.length)) := by
    rw [← zeros_add, textBlock]
    congr 2
    omega
  have htake : (textBlock name (20 - name.length)).take name.length = cells name := by
    rw [textBlock, List.take_left' (length_cells name)]
  have hcopy : store (textBlock (clientSetUser ++ [32]) 26) 4 (cells name) =
      .ok (textBlock (clientSetUser ++ [32] ++ name) (26 - name.length)) := by
    have hoff : 4 = (cells (clientSetUser ++ [32])).length := rfl
    rw [hsplit, store_append hoff (by simp), textBlock, cells_append (clientSetUser ++ [32]) name,
      List.append_assoc]
  have hfree : 0 ∉ clientSetUser ++ [32] ++ name := List.not_mem_append (by decide) h0
  have hend : cstr (textBlock ending 1) = .ok ending := cstr_textBlock (by decide) (by decide)
  have hfree' : 0 ∉ clientSetUser ++ [32] ++ name ++ ending := zero_notMem_frame hfree
  unfold sendUsername
  rw [hiam, run_mem_ok_bind, hspace, run_mem_ok_bind, strlen_textBlock h0 (by omega),
    run_mem_ok_bind, htake, hcopy, run_mem_ok_bind,
    strcat_textBlock hfree hend (by rw [length_ending]; omega), run_mem_ok_bind,
    cstr_textBlock hfree' (by rw [length_ending]; omega), run_mem_ok_bind, iamFrame]
  simp [writeSock]

/-- A longer name fills its block. -/
theorem currentUserName_of_long {name : Bytes} (hlen : 20 ≤ name.length) :
    currentUserName name = .ok (textBlock (name.take 20) 0) := by
  have htake : (name.take 20).length = 20 := List.length_take_of_le hlen
  have hsplit : textBlock name 1 = cells (name.take 20) ++ textBlock (name.drop 20) 1 := by
    rw [textBlock, textBlock, ← List.append_assoc, ← cells_append, List.take_append_drop]
  unfold currentUserName
  rw [Nat.min_eq_left hlen, hsplit]
  exact memcpy_calloc htake.symm (Nat.le_refl 20)

/-- The copy of the name in its 20 bytes is a string, and is sent as it is, in a block of 30
bytes. -/
def NameSurvives (name : Bytes) : Prop :=
  ∃ userName s, currentUserName name = .ok userName ∧ userName.length = 20 ∧ cstr userName = .ok s ∧
    ∀ c, (sendUsername userName).run c = (.ok (), { c with sent := c.sent ++ [iamFrame s] })

/-- **Which names survive**: those of up to 19 bytes. -/
theorem nameSurvives_iff {name : Bytes} (h0 : 0 ∉ name) : NameSurvives name ↔ name.length ≤ 19 := by
  constructor
  · rintro ⟨userName, s, hname, -, hcstr, -⟩
    by_contra hlong
    rw [currentUserName_of_long (by omega)] at hname
    obtain rfl := Except.ok.inj hname
    have hfree : 0 ∉ name.take 20 := fun hmem => h0 (List.mem_of_mem_take hmem)
    rw [cstr_textBlock_eq hfree, if_neg (by simp)] at hcstr
    cases hcstr
  · intro hlen
    refine ⟨_, name, currentUserName_eq hlen, ?_, cstr_textBlock h0 (by omega),
      run_sendUsername h0 hlen⟩
    rw [length_textBlock]
    omega

/-- A name of three bytes. -/
theorem nameSurvives_bob : NameSurvives [98, 111, 98] :=
  (nameSurvives_iff (by decide)).mpr (by decide)

/-- A name of twenty bytes leaves no room for the NUL. -/
theorem not_nameSurvives : ¬∀ name, 0 ∉ name → NameSurvives name := by
  intro hall
  have hfree : (0 : UInt8) ∉ List.replicate 20 97 := by decide
  exact absurd ((nameSurvives_iff hfree).mp (hall _ hfree)) (by decide)

/-- The answer to `U2EM` is the `IAM` of the name. -/
theorem run_loginString_hello {c : Login} (hc : c.state = .hello) {name : Bytes} (h0 : 0 ∉ name)
    (hlen : name.length ≤ 19) (n : ℤ) :
    (loginString (textBlock name (20 - name.length)) n (textBlock serverLoginInit 4)).run c =
      (.ok (), { c with
        sent := c.sent ++ [iamFrame name]
        state := .approval
        readBuf := readBuf [] }) := by
  unfold loginString
  rw [Eff.run_get_bind, hc]
  dsimp only
  rw [strcmpEq_literal (by decide) (by decide), run_mem_ok_bind, if_pos (by decide),
    Eff.run_bind_ok (run_sendUsername h0 hlen c)]
  rfl

/-- `MAI` in the state for it leads to the state of the `MOTD`. -/
theorem run_loginString_approval {c : Login} (hc : c.state = .approval) (userName : Block) (n : ℤ) :
    (loginString userName n (textBlock serverUserApprove 4)).run c =
      (.ok (), { c with state := .motd }) := by
  unfold loginString
  rw [Eff.run_get_bind, hc]
  dsimp only
  rw [strcmpEq_literal (by decide) (by decide), run_mem_ok_bind, if_neg (by decide),
    strcmpEq_literal (by decide) (by decide), run_mem_ok_bind, if_pos (by decide)]
  rfl

/-- Any other string than the two replies to a name is an error. -/
theorem run_loginString_approval_of_ne {c : Login} (hc : c.state = .approval) {body : Bytes}
    (h0 : 0 ∉ body) (htaken : body ≠ serverUserTaken) (happrove : body ≠ serverUserApprove)
    (userName : Block) (n : ℤ) :
    (loginString userName n (textBlock body 4)).run c =
      (.error (.error "Invalid syntex on username approval notice"), c) := by
  have h₁ : (body == serverUserTaken) = false := by simpa using htaken
  have h₂ : (body == serverUserApprove) = false := by simpa using happrove
  unfold loginString
  rw [Eff.run_get_bind, hc]
  dsimp only
  rw [strcmpEq_literal h0 (by decide), run_mem_ok_bind, h₁, if_neg (by decide),
    strcmpEq_literal h0 (by decide), run_mem_ok_bind, h₂, if_neg (by decide)]
  rfl

/-- What is printed of the message of the day: the pointer behind verb and space, and a length that
comes from the last `read`. -/
theorem run_loginString_motd_printed {c : Login} (hc : c.state = .motd)
    {rest : Bytes} (h0 : 0 ∉ rest) (userName : Block) (n : ℤ) :
    (loginString userName n (textBlock (serverMotd ++ rest) 4)).run c =
      (.ok (), { c with
        state := .done
        printed := c.printed ++ [((textBlock (serverMotd ++ rest) 4).drop (serverMotd.length + 1),
          ((n - serverMotd.length + 1) % sizeModulus).toNat)] }) := by
  have hfree : 0 ∉ serverMotd ++ rest := List.not_mem_append (by decide) h0
  have hsame : strncmpEq (textBlock (serverMotd ++ rest) 4) serverMotd 4 = .ok true := by
    have htake : (serverMotd ++ rest).take 4 = serverMotd := List.take_left' (by decide)
    rw [textBlock, strncmpEq_cells hfree (by rw [List.length_append]; exact Nat.le_add_right 4 _),
      htake]
    rfl
  unfold loginString
  rw [Eff.run_get_bind, hc]
  dsimp only
  rw [hsame, run_mem_ok_bind, if_pos rfl]
  rfl

/-- Any string that begins with `MOTD` ends the login. -/
theorem run_loginString_motd {c : Login} (hc : c.state = .motd) {rest : Bytes} (h0 : 0 ∉ rest)
    (userName : Block) (n : ℤ) :
    ∃ printed, (loginString userName n (textBlock (serverMotd ++ rest) 4)).run c =
      (.ok (), { c with state := .done, printed := printed }) :=
  ⟨_, run_loginString_motd_printed hc h0 userName n⟩

end ME2U.Client
