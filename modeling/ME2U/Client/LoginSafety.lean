import ME2U.Found.Runs
import ME2U.Client.Login

/-!
# The order of the login

The server may send any bytes, cut in any way, and may close or break the connection at any time.
`LoginRun` is `login_proc` against such a server, with the strings that `process_string` has
returned on record.

* `Progress`: what was sent and returned so far, for each value of `login_state`.
* `LoginRun.invariant`: a run that goes on is in one of these, and one that ended in `error` or
  `exit` has not got further.
* `LoginRun.safe`: the name is sent behind `U2EM` only, and the login ends behind `U2EM`, `MAI` and
  `MOTD` only.
-/

namespace ME2U.Client

/-! ## The parts of a `read` -/

/-- From a `read` to `process_string`.
Source: `client.c` `login_proc` (lines 127–129, 147–149, 167–169) -/
def readInto : ReadResult → LoginM Unit
  | .eof => do
      let c ← Eff.get
      Eff.stop (.error (eofMessage c.state))
  | .failed => pure ()
  | .data b => fill b

/-- What `process_string` returns for a `read`. -/
def readTake (r : ReadResult) : LoginM (Option Block) := do
  readInto r
  takeString

/-- `n`, what `read` returned. -/
def ReadResult.count : ReadResult → ℤ
  | .data b => b.length
  | .eof => 0
  | .failed => -1

/-- From `process_string` to the next `read`. -/
def loginAct (userName : Block) (n : ℤ) : Option Block → LoginM Unit
  | none => clear
  | some processStr => loginString userName n processStr

/-- The client takes a string out of its buffer and handles it. -/
theorem loginProcess_eq (userName : Block) (n : ℤ) :
    loginProcess userName n = takeString >>= loginAct userName n := rfl

/-- One `read` in two parts: what `process_string` makes of it, and what is done with that. -/
theorem loginRead_eq (userName : Block) (r : ReadResult) :
    loginRead userName r = readTake r >>= loginAct userName r.count := by
  unfold readTake
  rw [Eff.bind_assoc, ← loginProcess_eq]
  cases r <;> rfl

/-! ## Runs -/

/-- A run of `login_proc`. -/
structure LoginRun where
  login : Login
  /-- What `process_string` has returned, without the null pointers. -/
  returned : List Block
  /-- How the client ended, if it did. -/
  halted : Option Halt

/-- What happens in a run. -/
inductive LoginEvent
  /-- `login_proc` is entered. -/
  | begins
  /-- `select` returns without something to be read on the socket. -/
  | idles
  /-- `read` returns. -/
  | reads (r : ReadResult)
  /-- `read` returns, and fewer than four bytes are pending then: what lies in front of the block
  is no ending. -/
  | underruns (r : ReadResult)

/-- The text that `process_string` looks at. -/
def Login.lookedAt (c : Login) : Except Fault Bytes := do
  let p ← c.buf.text
  let t ← cstr c.readBuf
  pure (p ++ t)

/-- The string returned, if any. -/
def returnedBy : Except Halt (Option Block) → List Block
  | .ok (some x) => [x]
  | _ => []

/-- How a part of the client ended, if it ended the client. -/
def haltedBy {α : Type} : Except Halt α → Option Halt
  | .ok _ => none
  | .error e => some e

/-- The loop of `login_proc` goes on. -/
def LoginRun.Waits (s : LoginRun) : Prop :=
  s.halted = none ∧ s.login.state ≠ .start ∧ s.login.state ≠ .done

/-- A run after a `read`. -/
def LoginRun.read (userName : Block) (r : ReadResult) (s : LoginRun) : LoginRun where
  login := ((loginRead userName r).run s.login).2
  returned := s.returned ++ returnedBy ((readTake r).run s.login).1
  halted := haltedBy ((loginRead userName r).run s.login).1

/-- The steps of a run. -/
def LoginRun.Step (userName : Block) (s : LoginRun) : LoginEvent → LoginRun → Prop
  | .begins, s' => s.halted = none ∧ s.login.state = .start ∧
      s' = { s with login := (loginBegin.run s.login).2 }
  -- the loop is at its `select`, where `read_buf` is clear
  | .idles, s' => s.Waits ∧ s.login.readBuf = zeros maxline ∧
      s' = { s with login := (clear.run s.login).2 }
  | .reads r, s' => s.Waits ∧ r.Fits ∧ s' = s.read userName r
  | .underruns r, s' => s.Waits ∧ r.Fits ∧ ∃ c q, (readInto r).run s.login = (.ok (), c) ∧
      c.lookedAt = .ok q ∧ q.length < 4 ∧
      s' = { s with login := (clear.run (takeString.run c).2).2 }

/-- What `main` has set up. -/
def LoginRun.Initial (s : LoginRun) : Prop :=
  s = ⟨⟨.of [], zeros maxline, .start, [], []⟩, [], none⟩

/-- The login of a user name, against any server. -/
abbrev LoginRun.Reached (userName : Block) : LoginRun → Prop :=
  Reachable LoginRun.Initial (LoginRun.Step userName)

/-! ## What was sent and returned -/

/-- Source: `client.c` `send_login_msg` (line 539) -/
def loginMsg : Bytes := encode Verb.me2u ++ ending

/-- How far a login is that goes on: what was sent and what was returned, in each state. -/
inductive Progress (name : Bytes) : LoginState → List Bytes → List Block → Prop
  | start : Progress name .start [] []
  | hello : Progress name .hello [loginMsg] []
  | approval {x : Block} : cstr x = .ok serverLoginInit →
      Progress name .approval [loginMsg, iamFrame name] [x]
  | motd {x y : Block} : cstr x = .ok serverLoginInit → cstr y = .ok serverUserApprove →
      Progress name .motd [loginMsg, iamFrame name] [x, y]
  | done {x y z : Block} {rest : Bytes} : cstr x = .ok serverLoginInit →
      cstr y = .ok serverUserApprove → cstr z = .ok (serverMotd ++ rest) →
      Progress name .done [loginMsg, iamFrame name] [x, y, z]

/-- The frames go out in order and once each, the name behind `U2EM` only, and the login is through
behind `U2EM`, `MAI` and `MOTD` only. -/
structure LoginRun.Safe (name : Bytes) (s : LoginRun) : Prop where
  inOrder : s.login.sent <+: [loginMsg, iamFrame name]
  once : s.login.sent.Nodup
  greeted : iamFrame name ∈ s.login.sent → ∃ x ∈ s.returned, cstr x = .ok serverLoginInit
  through : s.login.state = .done → ∃ x y z rest, s.returned = [x, y, z] ∧
    cstr x = .ok serverLoginInit ∧ cstr y = .ok serverUserApprove ∧
    cstr z = .ok (serverMotd ++ rest)

/-- The two frames of a login are different, -/
theorem loginMsg_ne_iamFrame (name : Bytes) : loginMsg ≠ iamFrame name := by
  intro h
  have hfirst := congrArg List.head? h
  exact absurd hfirst (by simp [iamFrame]; decide)

section Progress

variable {name : Bytes} {st : LoginState} {sent : List Bytes} {ret : List Block}

/-- What was sent is a prefix of the two frames in their order. -/
theorem Progress.inOrder (h : Progress name st sent ret) : sent <+: [loginMsg, iamFrame name] := by
  cases h <;> simp [List.prefix_iff_eq_take]

/-- In no state was the name sent before `U2EM` came. -/
theorem Progress.greeted (h : Progress name st sent ret) (hsent : iamFrame name ∈ sent) :
    ∃ x ∈ ret, cstr x = .ok serverLoginInit := by
  cases h with
  | start => cases hsent
  | hello => exact absurd (List.mem_singleton.mp hsent).symm (loginMsg_ne_iamFrame name)
  | approval hx => exact ⟨_, by simp, hx⟩
  | motd hx _ => exact ⟨_, by simp, hx⟩
  | done hx _ _ => exact ⟨_, by simp, hx⟩

end Progress

/-- Where the two frames are sent in order neither is sent twice. -/
theorem nodup_frames (name : Bytes) : [loginMsg, iamFrame name].Nodup := by
  simpa using loginMsg_ne_iamFrame name

/-- A run that goes on is safe. -/
theorem Progress.safe_of_running {name : Bytes} {s : LoginRun}
    (h : Progress name s.login.state s.login.sent s.returned) : s.Safe name := by
  refine ⟨h.inOrder, (nodup_frames name).sublist h.inOrder.sublist, h.greeted, fun hdone => ?_⟩
  rw [hdone] at h
  generalize s.login.sent = sent, s.returned = ret at h
  cases h with
  | done hx hy hz => exact ⟨_, _, _, _, rfl, hx, hy, hz⟩

/-- So is a run that ended where it was, whatever string was returned last. -/
theorem Progress.safe_of_halted {name : Bytes} {s s' : LoginRun} {last : List Block}
    (h : Progress name s.login.state s.login.sent s.returned) (hwait : s.Waits)
    (hstate : s'.login.state = s.login.state) (hsent : s'.login.sent = s.login.sent)
    (hret : s'.returned = s.returned ++ last) : s'.Safe name := by
  refine ⟨?_, ?_, fun hmem => ?_, fun hdone => ?_⟩
  · rw [hsent]
    exact h.inOrder
  · rw [hsent]
    exact (nodup_frames name).sublist h.inOrder.sublist
  · rw [hsent] at hmem
    obtain ⟨x, hx, hstr⟩ := h.greeted hmem
    exact ⟨x, hret ▸ List.mem_append_left _ hx, hstr⟩
  · exact absurd (hstate.symm.trans hdone) hwait.2.2

/-! ## One `read` -/

/-- `full_buf` holds a text `p` that fits a block, and `read_buf` has its size. -/
structure Login.Pending (c : Login) (p : Bytes) : Prop where
  buf : c.buf = .of p
  zero_notMem : 0 ∉ p
  length_lt : p.length < bufLimit
  readBuf : c.readBuf.length = maxline

/-- `process_string` where `read_buf` holds none. -/
theorem run_takeString_error {c : Login} {f : Fault} (hf : cstr c.readBuf = .error f) :
    takeString.run c = (.error (.fault f), c) := by
  have hstrlen : strlen c.readBuf = .error f := by
    rw [strlen, hf]
    rfl
  have hcall : (processString c.readBuf).run c.buf = (.error f, c.buf) := by
    unfold processString
    rw [hstrlen]
    rfl
  unfold takeString
  rw [Eff.run_get_bind, Eff.run_zoom, hcall]
  rfl

section Take

variable {c : Login} {p : Bytes} (hp : c.Pending p)
include hp

/-- `process_string` where `read_buf` holds a string. -/
theorem Login.Pending.run_takeString {t : Bytes} (ht : cstr c.readBuf = .ok t) :
    takeString.run c =
      if bufLimit ≤ (p ++ t).length then (.error (.fault .intOverflow), c)
      else if (p ++ t).length < 4 then (.error (.fault .outOfBounds),
        { c with buf := .of (p ++ t) })
      else (.ok ((receive ending p t).1.map (textBlock · 4)),
        { c with buf := .of (receive ending p t).2 }) := by
  have hlen : t.length < maxline := hp.readBuf ▸ length_lt_of_cstr ht
  have hbuf := hp.buf
  unfold takeString
  rw [Eff.run_get_bind, Eff.run_zoom, hbuf,
    run_processString hp.zero_notMem ht hlen hp.length_lt]
  split_ifs
  · rw [← hbuf]
    rfl
  · rfl
  · rfl

/-- On any contents of `read_buf`, `process_string` stops or does what a receiver does. -/
theorem takeString_cases :
    (∃ f c', takeString.run c = (.error (.fault f), c') ∧ c'.sent = c.sent ∧ c'.state = c.state) ∨
      ∃ t, cstr c.readBuf = .ok t ∧ Manageable (p ++ t) ∧ takeString.run c =
        (.ok ((receive ending p t).1.map (textBlock · 4)),
          { c with buf := .of (receive ending p t).2 }) := by
  cases hread : cstr c.readBuf with
  | error f => exact .inl ⟨f, c, run_takeString_error hread, rfl, rfl⟩
  | ok t =>
      rw [hp.run_takeString hread]
      by_cases hover : bufLimit ≤ (p ++ t).length
      · rw [if_pos hover]
        exact .inl ⟨_, _, rfl, rfl, rfl⟩
      by_cases hunder : (p ++ t).length < 4
      · rw [if_neg hover, if_pos hunder]
        exact .inl ⟨_, _, rfl, rfl, rfl⟩
      · rw [if_neg hover, if_neg hunder]
        exact .inr ⟨t, rfl, ⟨Nat.not_lt.mp hunder, Nat.not_le.mp hover⟩, rfl⟩

end Take

/-- `m` ends the client, and sends nothing and leaves `login_state` before that. -/
def StopsAt {α : Type} (c : Login) (m : LoginM α) : Prop :=
  ∃ e c', m.run c = (.error e, c') ∧ c'.sent = c.sent ∧ c'.state = c.state

/-- `m` gets the login to where the strings `ret` have been returned. -/
def GetsTo (name : Bytes) (ret : List Block) (c : Login) (m : LoginM Unit) : Prop :=
  ∃ c' p, m.run c = (.ok (), c') ∧ c'.Pending p ∧ Progress name c'.state c'.sent ret

/-- A block keeps its length when something is stored in it. -/
theorem length_store {blk src blk' : Block} {off : ℕ} (h : store blk off src = .ok blk') :
    blk'.length = blk.length := by
  unfold store at h
  split_ifs at h with hroom
  obtain rfl := Except.ok.inj h
  simp only [List.length_append, List.length_take, List.length_drop]
  omega

/-- The `read` itself changes `read_buf` only. -/
theorem readInto_cases {c : Login} {p : Bytes} (hp : c.Pending p) {r : ReadResult} (hr : r.Fits) :
    (∃ e, (readInto r).run c = (.error e, c)) ∨
      ∃ blk, (readInto r).run c = (.ok (), { c with readBuf := blk }) ∧ blk.length = maxline := by
  cases r with
  | eof => exact .inl ⟨_, rfl⟩
  | failed => exact .inr ⟨c.readBuf, rfl, hp.readBuf⟩
  | data b =>
      have hroom : 0 + (cells b).length ≤ c.readBuf.length := by
        rw [Nat.zero_add, length_cells, hp.readBuf]
        exact hr.2
      have hstore : store c.readBuf 0 (cells b) =
          .ok (c.readBuf.take 0 ++ cells b ++ c.readBuf.drop (0 + (cells b).length)) := by
        unfold store
        rw [if_pos hroom]
      refine .inr ⟨_, ?_, (length_store hstore).trans hp.readBuf⟩
      show (fill b).run c = _
      unfold fill
      rw [Eff.run_get_bind, hstore]
      rfl

/-- What a `read` and `process_string` can do: stop, or return a string or nothing, with a text
pending again. Neither sends anything or changes `login_state`. -/
theorem readTake_cases {c : Login} {p : Bytes} (hp : c.Pending p) {r : ReadResult} (hr : r.Fits) :
    StopsAt c (readTake r) ∨
      ∃ (o : Option Bytes) (c' : Login) (p' : Bytes),
        (readTake r).run c = (.ok (o.map (textBlock · 4)), c') ∧ c'.sent = c.sent ∧
          c'.state = c.state ∧ c'.Pending p' ∧ ∀ body ∈ o, 0 ∉ body := by
  rcases readInto_cases hp hr with ⟨e, hinto⟩ | ⟨blk, hinto, hblk⟩
  · exact .inl ⟨e, c, Eff.run_bind_error hinto _, rfl, rfl⟩
  · have hp' : ({ c with readBuf := blk } : Login).Pending p :=
      ⟨hp.buf, hp.zero_notMem, hp.length_lt, hblk⟩
    rcases takeString_cases hp' with ⟨f, c', hrun, hsame⟩ | ⟨t, ht, hq, hrun⟩
    · exact .inl ⟨_, c', (Eff.run_bind_ok hinto _).trans hrun, hsame⟩
    · obtain ⟨hbody, hrest⟩ := zero_notMem_receive hp.zero_notMem (zero_notMem_of_cstr ht)
      exact .inr ⟨_, _, (receive ending p t).2, (Eff.run_bind_ok hinto _).trans hrun, rfl, rfl,
        ⟨rfl, hrest, length_receive_lt hq, hblk⟩, hbody⟩

/-! ## One string -/

section String

variable {name : Bytes} {userName : Block} {c : Login} {body : Bytes}

/-- A name of 20 bytes or more has no NUL behind it. -/
theorem run_sendUsername_outOfBounds (h0 : 0 ∉ name) (hname : currentUserName name = .ok userName)
    (hlen : 20 ≤ name.length) :
    (sendUsername userName).run c = (.error (.fault .outOfBounds), c) := by
  have hcopy : currentUserName name = .ok (cells (name.take 20) ++ zeros 0) := by
    have hsplit : textBlock name 1 = cells (name.take 20) ++ (cells (name.drop 20) ++ zeros 1) := by
      rw [textBlock, ← List.append_assoc, ← cells_append, List.take_append_drop]
    have htake : (name.take 20).length = 20 := List.length_take_of_le hlen
    unfold currentUserName
    rw [Nat.min_eq_left hlen, hsplit]
    exact memcpy_calloc htake.symm (Nat.le_refl 20)
  obtain rfl := Except.ok.inj (hcopy.symm.trans hname)
  have hstrlen : strlen (cells (name.take 20) ++ zeros 0) = .error .outOfBounds := by
    unfold strlen
    rw [cstr_cells_outOfBounds fun h => h0 (List.mem_of_mem_take h)]
    rfl
  have hiam : memcpy (calloc 30) (textBlock clientSetUser 1) 3 = .ok (textBlock clientSetUser 27) :=
    memcpy_calloc rfl (by decide)
  have hspace : store (textBlock clientSetUser 27) 3 [some 32] =
      .ok (textBlock (clientSetUser ++ [32]) 26) := rfl
  unfold sendUsername
  rw [hiam, run_mem_ok_bind, hspace, run_mem_ok_bind, hstrlen, run_mem_error_bind]

/-- Any other string than `U2EM` is an error. -/
theorem run_loginString_hello_of_ne (hc : c.state = .hello) (h0 : 0 ∉ body)
    (hne : body ≠ serverLoginInit) (n : ℤ) :
    (loginString userName n (textBlock body 4)).run c =
      (.error (.error "Expected Server Hello, got something else"), c) := by
  have hbeq : (body == serverLoginInit) = false := by simpa using hne
  unfold loginString
  rw [Eff.run_get_bind, hc]
  dsimp only
  rw [strcmpEq_literal h0 (by decide), run_mem_ok_bind, hbeq, if_neg (by decide)]
  rfl

/-- Any string that does not begin with `MOTD` is an error. -/
theorem run_loginString_motd_of_not_prefix (hc : c.state = .motd) (hno : ¬serverMotd <+: body)
    (n : ℤ) :
    (loginString userName n (textBlock body 4)).run c =
      (.error (.error "Invalid systex on MOTD"), c) := by
  have hsame : strncmpEq (textBlock body 4) serverMotd 4 = .ok (decide (serverMotd <+: body)) :=
    strncmpEq_textBlock (by decide) 3
  unfold loginString
  rw [Eff.run_get_bind, hc]
  dsimp only
  rw [hsame, run_mem_ok_bind, decide_eq_false hno, if_neg (by decide)]
  rfl

/-- `ETAKEN` ends the client. -/
theorem stopsAt_approval_taken (hc : c.state = .approval) (n : ℤ) :
    StopsAt c (loginString userName n (textBlock serverUserTaken 4)) := by
  obtain ⟨c', hc'⟩ : ∃ c' : Login, c' = ((print (textBlock usernameTaken 1)
    usernameTaken.length).run c).2 := ⟨_, rfl⟩
  refine ⟨.exit 1, c', ?_, by rw [hc']; rfl, by rw [hc']; rfl⟩
  unfold loginString
  rw [Eff.run_get_bind, hc]
  dsimp only
  rw [strcmpEq_literal (by decide) (by decide), run_mem_ok_bind, if_pos (by decide), hc']
  rfl

variable {p : Bytes} (hbody : 0 ∉ body) (hp : c.Pending p) (n : ℤ)
include hbody hp

/-- A string in the first state makes progress or ends the process, -/
theorem progress_hello (h0 : 0 ∉ name) (hname : currentUserName name = .ok userName)
    (hc : c.state = .hello) (hsent : c.sent = [loginMsg]) :
    StopsAt c (loginString userName n (textBlock body 4)) ∨
      GetsTo name [textBlock body 4] c (loginString userName n (textBlock body 4)) := by
  by_cases hne : body = serverLoginInit
  · subst hne
    by_cases hlen : name.length ≤ 19
    · obtain rfl := Except.ok.inj ((currentUserName_eq hlen).symm.trans hname)
      refine .inr ⟨_, p, run_loginString_hello hc h0 hlen n, ?_, ?_⟩
      · exact ⟨hp.buf, hp.zero_notMem, hp.length_lt, by simp [readBuf]⟩
      · rw [hsent]
        exact .approval (cstr_textBlock (by decide) (by decide))
    · refine .inl ⟨.fault .outOfBounds, c, ?_, rfl, rfl⟩
      unfold loginString
      rw [Eff.run_get_bind, hc]
      dsimp only
      rw [strcmpEq_literal (by decide) (by decide), run_mem_ok_bind, if_pos (by decide),
        Eff.run_bind_error (run_sendUsername_outOfBounds h0 hname (by omega))]
  · exact .inl ⟨_, c, run_loginString_hello_of_ne hc hbody hne n, rfl, rfl⟩

/-- as does one in the second -/
theorem progress_approval (hc : c.state = .approval) {x : Block} (hx : cstr x = .ok serverLoginInit)
    (hsent : c.sent = [loginMsg, iamFrame name]) :
    StopsAt c (loginString userName n (textBlock body 4)) ∨
      GetsTo name [x, textBlock body 4] c (loginString userName n (textBlock body 4)) := by
  by_cases htaken : body = serverUserTaken
  · subst htaken
    exact .inl (stopsAt_approval_taken hc n)
  by_cases happrove : body = serverUserApprove
  · subst happrove
    refine .inr ⟨_, p, run_loginString_approval hc userName n, ?_, ?_⟩
    · exact ⟨hp.buf, hp.zero_notMem, hp.length_lt, hp.readBuf⟩
    · rw [hsent]
      exact .motd hx (cstr_textBlock (by decide) (by decide))
  · exact .inl ⟨_, c, run_loginString_approval_of_ne hc hbody htaken happrove userName n, rfl, rfl⟩

/-- and one in the third. -/
theorem progress_motd (hc : c.state = .motd) {x y : Block} (hx : cstr x = .ok serverLoginInit)
    (hy : cstr y = .ok serverUserApprove) (hsent : c.sent = [loginMsg, iamFrame name]) :
    StopsAt c (loginString userName n (textBlock body 4)) ∨
      GetsTo name [x, y, textBlock body 4] c (loginString userName n (textBlock body 4)) := by
  by_cases hmotd : serverMotd <+: body
  · obtain ⟨rest, rfl⟩ := hmotd
    obtain ⟨printed, hrun⟩ :=
      run_loginString_motd hc (fun h => hbody (List.mem_append_right _ h)) userName n
    refine .inr ⟨_, p, hrun, ?_, ?_⟩
    · exact ⟨hp.buf, hp.zero_notMem, hp.length_lt, hp.readBuf⟩
    · rw [hsent]
      exact .done hx hy (cstr_textBlock hbody (by decide))
  · exact .inl ⟨_, c, run_loginString_motd_of_not_prefix hc hmotd n, rfl, rfl⟩

end String

/-- **One string**: it ends the client, or it was the one waited for. -/
theorem loginString_progress {name : Bytes} {userName : Block} (h0 : 0 ∉ name)
    (hname : currentUserName name = .ok userName) {c : Login} {p body : Bytes} {ret : List Block}
    (hbody : 0 ∉ body) (hp : c.Pending p) (n : ℤ) (h : Progress name c.state c.sent ret)
    (hstart : c.state ≠ .start) (hdone : c.state ≠ .done) :
    StopsAt c (loginString userName n (textBlock body 4)) ∨
      GetsTo name (ret ++ [textBlock body 4]) c (loginString userName n (textBlock body 4)) := by
  generalize hc : c.state = st, hsent : c.sent = sent at h
  rw [hc] at hstart hdone
  cases h with
  | start => exact absurd rfl hstart
  | hello => exact progress_hello hbody hp n h0 hname hc hsent
  | approval hx => exact progress_approval hbody hp n hc hx hsent
  | motd hx hy => exact progress_motd hbody hp n hc hx hy hsent
  | done => exact absurd rfl hdone

/-! ## Whole runs -/

/-- What holds in a run: it is safe, and while it goes on the strings returned are those that
`login_state` stands for. -/
structure LoginRun.Holds (name : Bytes) (s : LoginRun) : Prop where
  safe : s.Safe name
  goesOn : s.halted = none →
    Progress name s.login.state s.login.sent s.returned ∧ ∃ p, s.login.Pending p

/-- A run that goes on holds where its progress does. -/
theorem LoginRun.Holds.of_progress {name : Bytes} {s : LoginRun}
    (h : Progress name s.login.state s.login.sent s.returned) {p : Bytes} (hp : s.login.Pending p) :
    s.Holds name :=
  ⟨h.safe_of_running, fun _ => ⟨h, p, hp⟩⟩

/-- The run invariant holds at the start. -/
theorem LoginRun.Initial.holds {name : Bytes} {s : LoginRun} (h : s.Initial) : s.Holds name := by
  obtain rfl : s = _ := h
  exact .of_progress (p := []) .start ⟨rfl, by simp, by decide, length_zeros maxline⟩

section Steps

variable {name : Bytes} {userName : Block} {s : LoginRun}

/-- Entering `login_proc`. -/
theorem LoginRun.Holds.begins (h : s.Holds name) (hgo : s.halted = none)
    (hstart : s.login.state = .start) :
    ({ s with login := (loginBegin.run s.login).2 } : LoginRun).Holds name := by
  obtain ⟨hprog, p, hp⟩ := h.goesOn hgo
  have hrun : (loginBegin.run s.login).2 = { s.login with
      readBuf := zeros maxline
      sent := s.login.sent ++ [loginMsg]
      state := .hello } := rfl
  rw [hstart] at hprog
  rw [hrun]
  refine .of_progress (p := p) ?_ ⟨hp.buf, hp.zero_notMem, hp.length_lt, length_zeros maxline⟩
  dsimp only
  generalize s.login.sent = sent, s.returned = ret at hprog
  cases hprog with
  | start => exact .hello

/-- Clearing `read_buf`. -/
theorem LoginRun.Holds.clears (h : s.Holds name) (hgo : s.halted = none) {p : Bytes} {c : Login}
    (hp : c.Pending p) (hsent : c.sent = s.login.sent) (hstate : c.state = s.login.state) :
    ({ s with login := (clear.run c).2 } : LoginRun).Holds name := by
  have hprog := (h.goesOn hgo).1
  rw [← hsent, ← hstate] at hprog
  exact .of_progress (p := p) hprog ⟨hp.buf, hp.zero_notMem, hp.length_lt, length_zeros maxline⟩

/-- One `read`, and what is done with it. -/
theorem LoginRun.Holds.reads (h0 : 0 ∉ name) (hname : currentUserName name = .ok userName)
    (h : s.Holds name) (hwait : s.Waits) {r : ReadResult} (hr : r.Fits) :
    (s.read userName r).Holds name := by
  obtain ⟨hprog, p, hp⟩ := h.goesOn hwait.1
  unfold LoginRun.read
  rw [loginRead_eq]
  rcases readTake_cases hp hr with ⟨e, c', hrun, hsent, hstate⟩ |
    ⟨o, c', p', hrun, hsent, hstate, hp', hbody⟩
  · rw [Eff.run_bind_error hrun, hrun]
    exact ⟨hprog.safe_of_halted hwait hstate hsent rfl, fun hno => by cases hno⟩
  rw [Eff.run_bind_ok hrun, hrun]
  have hprog' : Progress name c'.state c'.sent s.returned := by rwa [hsent, hstate]
  cases o with
  | none =>
      -- no frame is complete: the loop starts again
      have hclear : (loginAct userName r.count none).run c' =
          (.ok (), { c' with readBuf := zeros maxline }) := rfl
      rw [Option.map_none, hclear]
      refine .of_progress (p := p') ?_
        ⟨hp'.buf, hp'.zero_notMem, hp'.length_lt, length_zeros maxline⟩
      show Progress name c'.state c'.sent (s.returned ++ [])
      rwa [List.append_nil]
  | some body =>
      have hstart : c'.state ≠ .start := hstate ▸ hwait.2.1
      have hdone : c'.state ≠ .done := hstate ▸ hwait.2.2
      rcases loginString_progress h0 hname (hbody body rfl) hp' r.count hprog' hstart hdone with
        ⟨e, c₂, hact, hsent₂, hstate₂⟩ | ⟨c₂, p₂, hact, hp₂, hprog₂⟩
      · have hstop : (loginAct userName r.count (some (textBlock body 4))).run
            c' = (.error e, c₂) :=
          hact
        rw [Option.map_some, hstop]
        exact ⟨hprog.safe_of_halted hwait (hstate₂.trans hstate) (hsent₂.trans hsent) rfl,
          fun hno => by cases hno⟩
      · have hgoes : (loginAct userName r.count (some (textBlock body 4))).run c' = (.ok (), c₂) :=
          hact
        rw [Option.map_some, hgoes]
        exact .of_progress hprog₂ hp₂

/-- A `read` behind which fewer than four bytes are pending. -/
theorem LoginRun.Holds.underruns (h : s.Holds name) (hwait : s.Waits) {r : ReadResult} (hr : r.Fits)
    {c : Login} {q : Bytes} (hinto : (readInto r).run s.login = (.ok (), c))
    (hq : c.lookedAt = .ok q) (hlen : q.length < 4) :
    ({ s with login := (clear.run (takeString.run c).2).2 } : LoginRun).Holds name := by
  obtain ⟨-, p, hp⟩ := h.goesOn hwait.1
  rcases readInto_cases hp hr with ⟨e, hno⟩ | ⟨blk, hdone, hblk⟩
  · rw [hno] at hinto
    cases hinto
  obtain rfl : _ = c := (Prod.mk.inj (hdone.symm.trans hinto)).2
  have hp' : ({ s.login with readBuf := blk } : Login).Pending p :=
    ⟨hp.buf, hp.zero_notMem, hp.length_lt, hblk⟩
  have htext : s.login.buf.text = .ok p := by
    rw [hp.buf]
    exact RecvBuf.text_of hp.zero_notMem
  unfold Login.lookedAt at hq
  rw [htext] at hq
  cases ht : cstr blk with
  | error f =>
      rw [ht] at hq
      cases hq
  | ok t =>
      rw [ht] at hq
      obtain rfl : p ++ t = q := Except.ok.inj hq
      have hlim : ¬bufLimit ≤ (p ++ t).length := by
        unfold bufLimit
        omega
      rw [hp'.run_takeString ht, if_neg hlim, if_pos hlen]
      refine h.clears hwait.1 (p := p ++ t) ⟨rfl, ?_, Nat.not_le.mp hlim, hblk⟩ rfl rfl
      exact List.not_mem_append hp.zero_notMem (zero_notMem_of_cstr ht)

/-- **One step.** -/
theorem LoginRun.Holds.step (h0 : 0 ∉ name) (hname : currentUserName name = .ok userName)
    (h : s.Holds name) {e : LoginEvent} {s' : LoginRun} (hst : s.Step userName e s') :
    s'.Holds name := by
  cases e with
  | begins =>
      obtain ⟨hgo, hstart, rfl⟩ := hst
      exact h.begins hgo hstart
  | idles =>
      obtain ⟨hwait, -, rfl⟩ := hst
      obtain ⟨-, p, hp⟩ := h.goesOn hwait.1
      exact h.clears hwait.1 hp rfl rfl
  | reads r =>
      obtain ⟨hwait, hr, rfl⟩ := hst
      exact h.reads h0 hname hwait hr
  | underruns r =>
      obtain ⟨hwait, hr, c, q, hinto, hq, hlen, rfl⟩ := hst
      exact h.underruns hwait hr hinto hq hlen

end Steps

/-- **The order of the login.** For every user name and against any server, every state that
`login_proc` gets to is safe. -/
theorem LoginRun.safe (name : Bytes) (h0 : 0 ∉ name) {userName : Block}
    (hname : currentUserName name = .ok userName) {s : LoginRun} (h : LoginRun.Reached userName s) :
    s.Safe name := by
  have hholds : s.Holds name := h.invariant (fun s₀ hinit => LoginRun.Initial.holds hinit)
    fun s₁ e s₂ hs _ hst => LoginRun.Holds.step h0 hname hs hst
  exact hholds.safe

/-- The first reply of the server. -/
private abbrev u2em : Bytes := serverLoginInit ++ ending

/-- A run that waits for `U2EM`. -/
private def waiting : LoginRun := ⟨⟨.of [], readBuf [], .hello, [loginMsg], []⟩, [], none⟩

/-- `U2EM` came, and the name was sent. -/
theorem LoginRun.safe_greeted :
    ∃ s, LoginRun.Reached (textBlock [97] 19) s ∧ s.login.sent = [loginMsg, iamFrame [97]] ∧
      s.Safe [97] := by
  have hname : currentUserName [97] = .ok (textBlock [97] 19) := currentUserName_eq (by decide)
  have hwaiting : LoginRun.Reached (textBlock [97] 19) waiting :=
    Reachable.next (.start rfl) (e := .begins) ⟨rfl, rfl, rfl⟩
  have hstep : waiting.Step (textBlock [97] 19) (.reads (.data u2em))
      (waiting.read (textBlock [97] 19) (.data u2em)) :=
    ⟨⟨rfl, by decide, by decide⟩, ⟨by decide, by decide⟩, rfl⟩
  have hreached := hwaiting.next hstep
  have hframe : [] ++ laidOver u2em [] = serverLoginInit ++ ending := rfl
  have hrun : (loginRead (textBlock [97] 19) (.data u2em)).run waiting.login =
      (loginString (textBlock [97] 19) u2em.length (textBlock serverLoginInit 4)).run
        { waiting.login with buf := .of [], readBuf := readBuf (laidOver u2em []) } :=
    run_loginRead_some rfl rfl (by decide) (by decide) ⟨by decide, by decide⟩ ⟨by decide, by decide⟩
      ⟨by decide, by decide⟩ hframe _
  have hsent := hrun.trans
    (@run_loginString_hello _ rfl [97] (by decide) (by decide) u2em.length)
  refine ⟨_, hreached, ?_, LoginRun.safe [97] (by decide) hname hreached⟩
  unfold LoginRun.read
  rw [hsent]
  rfl

end ME2U.Client
