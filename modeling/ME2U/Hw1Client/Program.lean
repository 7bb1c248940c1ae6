import ME2U.Found.Transducer
import ME2U.Hw1Client.LoginReactions

/-!
# `hw1_client` as a machine over strings

`main` of the earlier client is `login_proc` and then `regular_chat`. Where `calloc` gives some room
behind its blocks, all that it does is a matter of the strings that it reads: it is a machine over
these. Neither what lies behind a string in `buf` or in a block nor when `select` returns makes a
difference.

* `machine`: the machine; `Stage.Reads`: what can be read where it stands.
* `Program`, `Program.turn`: the client, with its blocks.
* `Program.exists_follows`, `Program.exists_turn`: what happens is a step of the machine, and what
  can be read is read.
* `Program.reached_iff`: the runs of the client are those of the machine.
-/

namespace ME2U.Hw1Client

open Client (Halt ReadResult ending userChat msgTo)

/-! ## The machine -/

/-- Where the client stands. -/
inductive Stage
  /-- In `login_proc`. -/
  | login (st : LoginState)
  /-- In `regular_chat`; whether the input is shut. -/
  | chat (shut : Bool)
  /-- `main` has come to its end, or the process has been stopped. -/
  | ended (how : Except Halt Unit)

/-- The chat begins where the login is done. -/
def Stage.afterLogin : Except Halt LoginState → Stage
  | .ok st => if st = .done then .chat false else .login st
  | .error h => .ended (.error h)

/-- `regular_chat` goes on or returns, and then `main` exits. -/
def Stage.afterChat (shut : Bool) : Except Halt Bool → Stage
  | .ok false => .chat shut
  | .ok true => .ended (.ok ())
  | .error h => .ended (.error h)

/-- The machine over what is read; what it puts out is written to the socket. -/
def machine (name : Except Fault Bytes) : Transducer Input Stage Bytes where
  step
    | .login st, i => (.afterLogin (loginReaction name st i).1, (loginReaction name st i).2)
    | .chat shut, i => (.afterChat (shut || (chatReaction shut i).shuts) (chatReaction shut i).ends,
        (chatReaction shut i).sends)
    | .ended how, _ => (.ended how, [])

/-- What can be read where it stands. -/
def Stage.Reads : Stage → Input → Prop
  | .login _, .nothing => True
  | .login st, .server g => st.Waits ∧ g.Possible
  | .chat _, .nothing => True
  | .chat _, .server g => g.Possible
  | .chat shut, .user g => shut = false ∧ g.Possible
  | _, _ => False

/-! ## The client -/

/-- The client, behind `connect`. -/
structure Program where
  login : Login
  /-- `none` as long as the login is not done. -/
  chat : Option Chat
  /-- `none` as long as it runs. -/
  ended : Option (Except Halt Unit)
  /-- What was read. -/
  took : List Input

namespace Program

/-- The client before its first step. -/
def init : Program := ⟨⟨.start, [], []⟩, none, none, []⟩

/-- What happens. -/
inductive Event
  /-- The first iteration begins. -/
  | begins
  /-- `select` has something to report: whether the socket and the terminal are in `rset`, and what
  a `read` from each returns. -/
  | selects (sockReady inputReady : Bool) (r line : ReadResult)

/-- An iteration of `login_proc`. -/
def afterLogin (p : Program) (i : Input) : Except Halt Unit × Login → Program
  | (.ok (), c) =>
      { p with
        login := c
        chat := if c.state = .done then some ⟨false, [], []⟩ else none
        took := p.took ++ [i] }
  | (.error h, c) => { p with login := c, ended := some (.error h), took := p.took ++ [i] }

/-- An iteration of `regular_chat`. -/
def afterChat (p : Program) (i : Input) : Except Halt Bool × Chat → Program
  | (.ok false, c) => { p with chat := some c, took := p.took ++ [i] }
  | (.ok true, c) => { p with chat := some c, ended := some (.ok ()), took := p.took ++ [i] }
  | (.error h, c) => { p with chat := some c, ended := some (.error h), took := p.took ++ [i] }

/-- Source: `main.c` `main` (lines 60–63), `client.c` `login_proc` (lines 127–261), `regular_chat`
(lines 263–387) -/
def turn (slack : ℕ) (userName : Block) (p : Program) : Event → Program
  | .begins => p.afterLogin .nothing ((loginBegin slack).run p.login)
  | .selects sockReady inputReady r line =>
      match p.chat with
      | none =>
          p.afterLogin (loginInput p.login sockReady r)
            ((loginSelected slack userName sockReady r).run p.login)
      | some c =>
          -- the terminal is not in the set any more where it was shut
          let inputReady := inputReady && !c.stdineof
          p.afterChat (chatInput sockReady inputReady r line)
            ((chatIteration slack sockReady inputReady r line).run c)

/-- Where it stands. -/
def stage (p : Program) : Stage :=
  match p.ended, p.chat with
  | some how, _ => .ended how
  | none, some c => .chat c.stdineof
  | none, none => .login p.login.state

/-- Whether the input is shut, behind `/logout` or its end. -/
def inputShut (p : Program) : Bool := p.chat.any (·.stdineof)

/-- What was written to the socket. -/
def written (p : Program) : List Bytes :=
  p.login.sent ++ match p.chat with
    | none => []
    | some c => c.sent.map bytesOf

/-- It can happen. -/
def Event.Can (p : Program) : Event → Prop
  | .begins => p.stage = .login .start
  | .selects _ _ r line => p.ended = none ∧ p.stage ≠ .login .start ∧ r.Fits ∧ line.Fits

section Refinement

variable {slack : ℕ} {userName : Block} {name : Except Fault Bytes} {p : Program} {i : Input}

/-- A client that has not ended is in its login -/
theorem stage_login (hended : p.ended = none) (hchat : p.chat = none) :
    p.stage = .login p.login.state := by
  rw [stage, hended, hchat]

/-- or in its chat, -/
theorem stage_chat {c : Chat} (hended : p.ended = none) (hchat : p.chat = some c) :
    p.stage = .chat c.stdineof := by
  rw [stage, hended, hchat]

theorem inputShut_of_stage {shut : Bool} (h : p.stage = .chat shut) : p.inputShut = shut := by
  cases hended : p.ended with
  | some how =>
      rw [stage, hended] at h
      cases h
  | none =>
      cases hchat : p.chat with
      | none =>
          rw [stage_login hended hchat] at h
          cases h
      | some c =>
          rw [stage_chat hended hchat] at h
          rw [inputShut, hchat]
          exact Stage.chat.inj h

/-- and one that has ended stays so. -/
theorem stage_ended {how : Except Halt Unit} (hended : p.ended = some how) :
    p.stage = .ended how := by
  rw [stage, hended]

theorem stage_ne_ended (hended : p.ended = none) (how : Except Halt Unit) :
    p.stage ≠ .ended how := by
  rw [stage, hended]
  cases p.chat <;> nofun

/-- From `p` to `p'`, `i` was read, and the machine makes the step on it. -/
structure Follows (name : Except Fault Bytes) (p : Program) (i : Input) (p' : Program) : Prop where
  took : p'.took = p.took ++ [i]
  stage : p'.stage = ((machine name).step p.stage i).1
  written : p'.written = p.written ++ ((machine name).step p.stage i).2

/-- A step of the login follows the machine, -/
theorem follows_afterLogin (hended : p.ended = none) (hchat : p.chat = none)
    {out : Except Halt Unit × Login}
    (h : Logs p.login out (loginReaction name p.login.state i)) :
    Follows name p i (p.afterLogin i out) := by
  have hstage := stage_login hended hchat
  obtain ⟨printed, rfl⟩ := h
  have hnext : (machine name).step p.stage i = (.afterLogin (loginReaction name p.login.state i).1,
      (loginReaction name p.login.state i).2) := by rw [hstage]; rfl
  generalize loginReaction name p.login.state i = ρ at hnext ⊢
  obtain ⟨how, sends⟩ := ρ
  cases how with
  | ok st =>
      refine ⟨rfl, ?_, ?_⟩ <;> rw [hnext] <;> dsimp only [afterLogin, stage,
        written, Stage.afterLogin]
      · rw [hended]
        split_ifs <;> rfl
      · rw [hchat]
        split_ifs <;> simp
  | error h =>
      refine ⟨rfl, by rw [hnext]; rfl, ?_⟩
      rw [hnext]
      dsimp only [afterLogin, written]
      rw [hchat, List.append_nil, List.append_nil]

/-- as does one of the chat. -/
theorem follows_afterChat {c : Chat} (hended : p.ended = none) (hchat : p.chat = some c)
    {out : Except Halt Bool × Chat} (h : Reacts c out (chatReaction c.stdineof i)) :
    Follows name p i (p.afterChat i out) := by
  have hstage := stage_chat hended hchat
  obtain ⟨xs, printed, hxs, rfl⟩ := h
  have hnext : (machine name).step p.stage i =
    (.afterChat (c.stdineof || (chatReaction c.stdineof i).shuts)
      (chatReaction c.stdineof i).ends, (chatReaction c.stdineof i).sends) := by rw [hstage]; rfl
  have hwritten : p.login.sent ++ (c.sent ++ xs).map bytesOf =
      p.written ++ (chatReaction c.stdineof i).sends := by
    rw [written, hchat, List.map_append, hxs, List.append_assoc]
  cases hends : (chatReaction c.stdineof i).ends with
  | ok returns =>
      rw [hends] at hnext
      cases returns with
      | false =>
          refine ⟨rfl, ?_, by rw [hnext]; exact hwritten⟩
          rw [hnext, stage, afterChat, hended]
          rfl
      | true => exact ⟨rfl, by rw [hnext]; rfl, by rw [hnext]; exact hwritten⟩
  | error h =>
      rw [hends] at hnext
      exact ⟨rfl, by rw [hnext]; rfl, by rw [hnext]; exact hwritten⟩

variable (hslack : 5 ≤ slack)

/-- A client that has ended takes no event. -/
theorem Event.Can.ended {e : Event} (he : e.Can p) : p.ended = none := by
  cases e with
  | begins =>
      cases hended : p.ended with
      | none => rfl
      | some how =>
          have hstart : p.stage = .login .start := he
          rw [stage_ended hended] at hstart
          cases hstart
  | selects => exact he.1

/-- The input of a login step is one that the login can read, -/
theorem reads_loginInput (c : Login) (ready : Bool) {r : ReadResult} (hr : r.Fits) :
    (Stage.login c.state).Reads (loginInput c ready r) := by
  rw [loginInput]
  split_ifs with hready
  · have hreads := (Bool.and_eq_true_iff.mp hready).2
    refine ⟨?_, got_possible hr⟩
    simpa [Login.reads, LoginState.Waits, or_assoc] using hreads
  · trivial

/-- and that of a chat step one that the chat can read. -/
theorem reads_chatInput (shut sockReady inputReady : Bool) {r line : ReadResult} (hr : r.Fits)
    (hline : line.Fits) :
    (Stage.chat shut).Reads (chatInput sockReady (inputReady && !shut) r line) := by
  rw [chatInput]
  split_ifs with _ hinput
  · exact got_possible hr
  · exact ⟨(Bool.not_eq_true' _).mp (Bool.and_eq_true_iff.mp hinput).2, got_possible hline⟩
  · trivial

include hslack in
/-- **What happens** is a step of the machine on what can be read. -/
theorem exists_follows {e : Event} (he : e.Can p) :
    ∃ i, p.stage.Reads i ∧ Follows (cstr userName) p i (p.turn slack userName e) := by
  have hended := he.ended
  cases hchat : p.chat with
  | none =>
      have hstage := stage_login hended hchat
      cases e with
      | begins =>
          have hstart : p.login.state = .start := Stage.login.inj (hstage.symm.trans he)
          refine ⟨.nothing, hstage ▸ trivial, follows_afterLogin hended hchat ?_⟩
          rw [run_loginBegin, if_pos hslack, hstart]
          exact ⟨[], by simp [loginReaction]⟩
      | selects sockReady inputReady r line =>
          obtain ⟨-, hne, hr, -⟩ := he
          have hstart : p.login.state ≠ .start :=
            fun h => hne (hstage.trans (congrArg Stage.login h))
          refine ⟨loginInput p.login sockReady r, hstage ▸ reads_loginInput p.login sockReady hr,
            ?_⟩
          dsimp only [turn]
          rw [hchat]
          exact follows_afterLogin hended hchat
            (logs_loginSelected hslack p.login hr userName hstart sockReady)
  | some c =>
      have hstage := stage_chat hended hchat
      cases e with
      | begins => cases hstage.symm.trans he
      | selects sockReady inputReady r line =>
          obtain ⟨-, -, hr, hline⟩ := he
          refine ⟨_, hstage ▸ reads_chatInput c.stdineof sockReady inputReady hr hline, ?_⟩
          dsimp only [turn]
          rw [hchat]
          exact follows_afterChat hended hchat
            (reacts_chatIteration _ c (by omega) hr hline sockReady)

/-- A step of the login records its input, -/
theorem took_afterLogin (p : Program) (i : Input) (out : Except Halt Unit × Login) :
    (p.afterLogin i out).took = p.took ++ [i] := by
  obtain ⟨_ | _, _⟩ := out <;> rfl

/-- as does one of the chat. -/
theorem took_afterChat (p : Program) (i : Input) (out : Except Halt Bool × Chat) :
    (p.afterChat i out).took = p.took ++ [i] := by
  obtain ⟨_ | _ | _, _⟩ := out <;> rfl

theorem took_selects_login (hchat : p.chat = none) (sockReady inputReady : Bool)
    (r line : ReadResult) :
    (p.turn slack userName (.selects sockReady inputReady r line)).took =
      p.took ++ [loginInput p.login sockReady r] := by
  dsimp only [turn]
  rw [hchat]
  exact took_afterLogin ..

theorem took_selects_chat {c : Chat} (hchat : p.chat = some c) (sockReady inputReady : Bool)
    (r line : ReadResult) :
    (p.turn slack userName (.selects sockReady inputReady r line)).took =
      p.took ++ [chatInput sockReady (inputReady && !c.stdineof) r line] := by
  dsimp only [turn]
  rw [hchat]
  exact took_afterChat ..

/-- In the login. -/
theorem exists_turn_login (hended : p.ended = none) (hchat : p.chat = none)
    (h : (Stage.login p.login.state).Reads i) :
    ∃ e : Event, e.Can p ∧ (p.turn slack userName e).took = p.took ++ [i] := by
  have hstage := stage_login hended hchat
  by_cases hstart : p.stage = .login .start
  · refine ⟨.begins, hstart, (took_afterLogin ..).trans ?_⟩
    have hls : p.login.state = .start := Stage.login.inj (hstage.symm.trans hstart)
    match i with
    | .nothing => rfl
    | .server g => exact absurd h.1 (by rw [hls]; simp [LoginState.Waits])
  match i with
  | .nothing =>
      exact ⟨.selects false false .eof .eof, ⟨hended, hstart, trivial, trivial⟩,
        took_selects_login hchat ..⟩
  | .server g =>
      obtain ⟨hwaits, hg⟩ := h
      obtain ⟨r, hr, rfl⟩ := exists_got hg
      refine ⟨.selects true false r .eof, ⟨hended, hstart, hr, trivial⟩,
        (took_selects_login hchat ..).trans ?_⟩
      have hreads : p.login.reads = true := by
        simpa [Login.reads, LoginState.Waits, or_assoc] using hwaits
      rw [loginInput, hreads]
      rfl

/-- In the chat. -/
theorem exists_turn_chat {c : Chat} (hended : p.ended = none) (hchat : p.chat = some c)
    (h : (Stage.chat c.stdineof).Reads i) :
    ∃ e : Event, e.Can p ∧ (p.turn slack userName e).took = p.took ++ [i] := by
  have hstart : p.stage ≠ .login .start := by
    rw [stage_chat hended hchat]
    nofun
  match i with
  | .nothing =>
      exact ⟨.selects false false .eof .eof, ⟨hended, hstart, trivial, trivial⟩,
        took_selects_chat hchat ..⟩
  | .server g =>
      obtain ⟨r, hr, rfl⟩ := exists_got h
      exact ⟨.selects true false r .eof, ⟨hended, hstart, hr, trivial⟩, took_selects_chat hchat ..⟩
  | .user g =>
      obtain ⟨hopen, hg⟩ := h
      obtain ⟨line, hline, rfl⟩ := exists_got hg
      refine ⟨.selects false true .eof line, ⟨hended, hstart, trivial, hline⟩,
        (took_selects_chat hchat ..).trans ?_⟩
      rw [hopen]
      rfl

/-- **What can be read is read** when the right thing happens. -/
theorem exists_turn (h : p.stage.Reads i) : ∃ e : Event, e.Can p ∧
    (p.turn slack userName e).took = p.took ++ [i] := by
  cases hended : p.ended with
  | some how =>
      rw [stage_ended hended] at h
      cases i <;> exact h.elim
  | none =>
      cases hchat : p.chat with
      | none => exact exists_turn_login hended hchat (stage_login hended hchat ▸ h)
      | some c => exact exists_turn_chat hended hchat (stage_chat hended hchat ▸ h)

/-- The states that a run from `p` on reaches. -/
abbrev Continues (slack : ℕ) (userName : Block) (p : Program) : Program → Prop :=
  Reaches (· = p) (fun p e => Event.Can p e) fun p e p' => p' = p.turn slack userName e

/-- The states that runs of the client reach. -/
abbrev Reached (slack : ℕ) (userName : Block) : Program → Prop :=
  Continues slack userName init

/-- **The client implements the machine.** -/
def implements : Implements (machine (cstr userName)) (.login .start) Stage.Reads (· = init)
    (fun p e => Event.Can p e) fun p e p' => p' = p.turn slack userName e where
  shows := stage
  taken := took
  put := written
  begins := ⟨init, rfl⟩
  start := by
    rintro p rfl
    exact ⟨rfl, rfl, rfl⟩
  next := by
    rintro p e p' he rfl
    obtain ⟨i, hi, hfollows⟩ := exists_follows hslack he
    exact ⟨i, hi, hfollows.took, hfollows.stage, hfollows.written⟩
  takes := by
    intro p i hi
    obtain ⟨e, he, htook⟩ := exists_turn hi
    exact ⟨e, _, he, rfl, htook⟩

include hslack in
/-- **The runs of the client are those of the machine**, on what can be read. -/
theorem reached_iff {is : List Input} {st : Stage} {out : List Bytes} :
    (∃ p, Reached slack userName p ∧ p.took = is ∧ p.stage = st ∧ p.written = out) ↔
      (machine (cstr userName)).Along Stage.Reads (.login .start) is ∧
        (machine (cstr userName)).run (.login .start) is = (st, out) :=
  (implements hslack).run_iff

/-- The name in the example. -/
def neal : Bytes := encode (String.toList "neal")

/-- A login as `neal`, a message from `bo`, and a line with one for `bo`. -/
def talk : List Input :=
  [.nothing, .server (.string (serverLoginInit ++ ending)), .nothing,
    .server (.string (serverUserApprove ++ ending)),
      .server (.string (serverMotd ++ 32 :: 104 :: ending)),
    .server (.string (msgFrom ++ encode (String.toList " bo hi") ++ ending)),
    .user (.string (userChat ++ encode (String.toList " bo yo\n")))]

/-- What is written then. -/
def talkFrames : List Bytes :=
  [me2uFrame, iamFrame neal, confirmMsgFrom ++ encode (String.toList " bo") ++ ending,
    msgTo ++ encode (String.toList " bo yo\n") ++ ending]

theorem along_talk :
    (machine (cstr (textBlock neal 16))).Along Stage.Reads (.login .start) talk := by
  have hshort : ∀ n, n < 100 → n < maxline := fun n hn => hn.trans (by decide)
  refine ⟨trivial, ⟨.inl rfl, by decide, hshort _ (by decide)⟩, trivial,
    ⟨.inr (.inl rfl), by decide, hshort _ (by decide)⟩,
      ⟨.inr (.inr rfl), by decide, hshort _ (by decide)⟩,
    ⟨by decide, hshort _ (by decide)⟩, ⟨rfl, by decide, hshort _ (by decide)⟩, trivial⟩

/-- The frames of the whole run. -/
theorem run_talk :
    (machine (cstr (textBlock neal 16))).run (.login .start) talk = (.chat false, talkFrames) := rfl

/-- The client can do so. -/
theorem reached_iff_talk :
    ∃ p, Reached 5 (textBlock neal 16) p ∧ p.took = talk ∧ p.stage = .chat false ∧
    p.written = talkFrames := (reached_iff (Nat.le_refl 5)).mpr ⟨along_talk, run_talk⟩

end Refinement

end Program

end ME2U.Hw1Client
