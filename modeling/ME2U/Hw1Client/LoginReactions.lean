import ME2U.Hw1Client.Reactions

/-!
# What `hw1_client` does in its login with any string

As in the chat, what `login_proc` does in a state is a matter of the string that it reads, and only
the state in which the name is sent does not read. Where `calloc` gives room for an ending and a NUL
behind its blocks, every frame is built.

* `loginReaction`: what is done, by the state and what is read.
* `run_sendName`: the name is sent where there is one.
* `logs_loginSelected`: the login does what is done with what it reads.
-/

namespace ME2U.Hw1Client

open Client (Halt ReadResult ending length_ending mem run_mem_ok_bind run_mem_error_bind)

/-! ## The login -/

/-- The request that carries the name. -/
def iamFrame (name : Bytes) : Bytes := clientSetUser ++ 32 :: (name ++ ending)

/-- What is done with a string of the server; the next state.
Source: `client.c` `login_proc` (lines 163–234) -/
def loginString : LoginState → Bytes → Except Halt LoginState
  | .hello, s =>
      if s = [] then .ok .hello
      else if serverLoginInit <+: s then .ok .name
      else .error (.error "Expected server hello, got something else")
  | .approval, s =>
      if serverUserTaken <+: s then .error (.error "User name is taken")
      else if serverUserApprove <+: s then .ok .motd
      else if s = [] then .ok .approval
      else .error (.error "Invalid systex on username approval notice")
  | .motd, s =>
      if s = [] then .ok .motd
      else if serverMotd <+: s then .ok .done
      else .error (.error "Invalid systex on MOTD")
  | st, _ => .ok st

/-- What is printed at the end of the stream. -/
def loginEof : LoginState → String
  | .hello => "Server exited prevaturely while in hello procedure"
  | .approval => "Server exited prevaturely while in username approval procedure"
  | _ => "Server exited prevaturely before MOTD"

/-- What is done in the login, by its state and what is read: the next state, and what is sent.
`name` is the string in `CURRENT_USER_NAME`, if there is one.
Source: `client.c` `login_proc` (lines 150–238) -/
def loginReaction (name : Except Fault Bytes) :
    LoginState → Input → Except Halt LoginState × List Bytes
  | .start, _ => (.ok .hello, [me2uFrame])
  | .name, _ =>
      match name with
      | .ok n => (.ok .approval, [iamFrame n])
      | .error f => (.error (.fault f), [])
  | st, .server (.string s) => (loginString st s, [])
  | st, .server .eof => (.error (.error (loginEof st)), [])
  | _, .server .overrun => (.error (.fault .outOfBounds), [])
  | st, _ => (.ok st, [])

/-- What an iteration of `login_proc` reads. -/
def loginInput (c : Login) (ready : Bool) (r : ReadResult) : Input :=
  if ready && c.reads then .server (got r) else .nothing

/-- From `c`, a computation of the login has done so. -/
def Logs (c : Login) (out : Except Halt Unit × Login) (ρ : Except Halt LoginState × List Bytes) :
    Prop :=
  ∃ printed, out = match ρ.1 with
    | .ok st => (.ok (), ⟨st, c.sent ++ ρ.2, c.printed ++ printed⟩)
    | .error h => (.error h, ⟨c.state, c.sent ++ ρ.2, c.printed ++ printed⟩)

section Login

variable {slack : ℕ} (hslack : 5 ≤ slack) (c : Login)

/-- The name is read to its end first. -/
theorem run_sendName_of_error {userName : Block} {f : Fault} (hname : cstr userName = .error f) :
    (sendName slack userName).run c = (.error (.fault f), c) := by
  rw [sendName, strlen_of_error hname, run_mem_error_bind]

include hslack in
/-- **The name is sent** where there is one. -/
theorem run_sendName {userName : Block} {name : Bytes} (hname : cstr userName = .ok name) :
    (sendName slack userName).run c =
      (.ok (), { c with state := .approval, sent := c.sent ++ [iamFrame name] }) := by
  have h0 := zero_notMem_of_cstr hname
  obtain ⟨-, q, rfl⟩ := exists_of_cstr hname
  have htake : (cells name ++ some 0 :: q).take name.length = cells name :=
    List.take_left' (length_cells name)
  have h₁ : memcpy (calloc (name.length + clientSetUser.length + 5 + slack))
    (textBlock clientSetUser 1) 3 =
      .ok (textBlock clientSetUser (name.length + 5 + slack)) := by
    have hroom : name.length + clientSetUser.length + 5 + slack - 3 = name.length + 5 + slack := by
      rw [show clientSetUser.length = 3 from rfl]
      omega
    rw [← hroom]
    exact memcpy_calloc rfl (by rw [show clientSetUser.length = 3 from rfl]; omega)
  have h₂ : store (textBlock clientSetUser (name.length + 5 + slack)) 3 [some 32] =
      .ok (textBlock (clientSetUser ++ [32]) (name.length + (4 + slack))) := by
    have hroom : name.length + 5 + slack = 1 + (name.length + (4 + slack)) := by omega
    have hoff : 3 = (cells clientSetUser).length := rfl
    rw [hroom, textBlock, zeros_add, store_append hoff (by simp), textBlock,
      cells_append, List.append_assoc]
    rfl
  have h₃ : store (textBlock (clientSetUser ++ [32]) (name.length + (4 + slack))) 4 (cells name) =
      .ok (textBlock (clientSetUser ++ [32] ++ name) (4 + slack)) := by
    have hoff : 4 = (cells (clientSetUser ++ [32])).length := rfl
    rw [textBlock, zeros_add, store_append hoff (by simp), textBlock,
      cells_append (clientSetUser ++ [32]) name, List.append_assoc]
  have hfree : 0 ∉ clientSetUser ++ [32] ++ name := List.not_mem_append (by decide) h0
  have hframe := cstr_setStringEnding slack hfree (show 4 + slack ≠ 0 by omega)
  rw [if_pos hslack] at hframe
  unfold sendName
  rw [strlen_of_cstr hname, run_mem_ok_bind, h₁, run_mem_ok_bind, h₂, run_mem_ok_bind, htake,
    h₃, run_mem_ok_bind]
  cases hset : setStringEnding slack (textBlock (clientSetUser ++ [32] ++ name) (4 + slack)) with
  | error f =>
      rw [hset] at hframe
      cases hframe
  | ok tempStr =>
      rw [hset] at hframe
      have hcstr : cstr tempStr = .ok (clientSetUser ++ [32] ++ name ++ ending) := hframe
      rw [run_mem_ok_bind, hcstr, run_mem_ok_bind, iamFrame]
      simp [writeSock, goto]

variable {r : ReadResult} (hr : r.Fits)

/-- Without a string, nothing but the state is touched. -/
theorem Logs.of_run {out : Except Halt Unit × Login} {ρ : Except Halt LoginState}
    (h : out = match ρ with
    | .ok st => (.ok (), { c with state := st })
    | .error h => (.error h, c)) : Logs c out (ρ, []) := by
  refine ⟨[], h.trans ?_⟩
  cases ρ with
  | ok st => simp
  | error h => simp

/-- In the state of the name the client sends it. -/
theorem loginReaction_name (name : Except Fault Bytes) (i : Input) :
    loginReaction name .name i = match name with
    | .ok n => (.ok .approval, [iamFrame n])
    | .error f => (.error (.fault f), []) := by
  rcases i with _ | ⟨_ | _ | _⟩ | ⟨_ | _ | _⟩ <;> rfl

/-- The states that wait for a string. -/
def LoginState.Waits (st : LoginState) : Prop := st = .hello ∨ st = .approval ∨ st = .motd

/-- In a state that waits it handles what the server sends. -/
theorem loginReaction_server {st : LoginState} (hst : st.Waits)
    (name : Except Fault Bytes) (g : Got) :
    loginReaction name st (.server g) = match g with
      | .string s => (loginString st s, [])
      | .eof => (.error (.error (loginEof st)), [])
      | .overrun => (.error (.fault .outOfBounds), []) := by
  rcases hst with rfl | rfl | rfl <;> cases g <;> rfl

variable (name : Except Fault Bytes)

include hr in
/-- What is done with a string is all that there is to say of the states that wait for one. -/
theorem logs_readString {st : LoginState} (hst : st.Waits) {k : Block → LoginM Unit}
    (hk : ∀ s, 0 ∉ s → Logs c ((k (textBlock s slack)).run c) (loginString st s, [])) :
    Logs c ((readString slack (loginEof st) r >>= k).run c)
    (loginReaction name st (.server (got r))) := by
  rw [loginReaction_server hst]
  rcases got_cases hr with ⟨rfl, hgot⟩ | ⟨hne, hgot, hbuf⟩ | ⟨hne, s, hgot, hbuf⟩
  · rw [hgot]
    exact .of_run c rfl
  all_goals
    have hread : readString slack (loginEof st) r =
        mem (getStringWithoutEnding slack (bufAfter r)) := by
      cases r with
      | eof => exact absurd rfl hne
      | failed => rfl
      | data b => rfl
    rw [hread, hgot]
    unfold getStringWithoutEnding
  · rw [strlen_of_error hbuf]
    exact .of_run c rfl
  · rw [strlen_of_cstr hbuf, ok_bind, memcpy_of_cstr hbuf]
    exact hk s (zero_notMem_of_cstr hbuf)

/-- The line that is printed for an empty string. -/
theorem run_printfError (s : Bytes) :
    ∃ printed, (printfError s).run c = (.ok (), { c with printed := c.printed ++ printed }) :=
  ⟨_, by simp [printfError, print]; rfl⟩

variable (userName : Block)

include hslack hr in
/-- An iteration in the first state reacts as its input says, -/
theorem logs_hello (hc : c.state = .hello) :
    Logs c ((loginSelected slack userName true r).run c)
    (loginReaction name .hello (.server (got r))) := by
  have hroom : slack ≠ 0 := by omega
  unfold loginSelected
  rw [Eff.run_get_bind, hc]
  refine logs_readString c hr name (.inl rfl) fun s h0 => ?_
  rw [loginString, cstr_textBlock h0 hroom, run_mem_ok_bind]
  by_cases hempty : s = []
  · obtain ⟨printed, hprint⟩ := run_printfError c s
    rw [if_pos (List.length_eq_zero_iff.mpr hempty), if_pos hempty, hprint]
    exact ⟨printed, by simp [hc]⟩
  rw [if_neg fun h => hempty (List.length_eq_zero_iff.mp h), if_neg hempty,
    startsWith_textBlock h0 (by decide) hroom, run_mem_ok_bind]
  by_cases hhello : serverLoginInit <+: s
  · rw [decide_eq_true hhello, if_pos rfl, if_pos hhello]
    exact .of_run c rfl
  · rw [decide_eq_false hhello, if_neg (by decide), if_neg hhello]
    exact .of_run c rfl

include hslack hr in
/-- so does one that waits for the approval, -/
theorem logs_approval (hc : c.state = .approval) :
    Logs c ((loginSelected slack userName true r).run c)
    (loginReaction name .approval (.server (got r))) := by
  have hroom : slack ≠ 0 := by omega
  unfold loginSelected
  rw [Eff.run_get_bind, hc]
  refine logs_readString c hr name (.inr (.inl rfl)) fun s h0 => ?_
  rw [loginString, startsWith_textBlock h0 (by decide) hroom, run_mem_ok_bind]
  by_cases htaken : serverUserTaken <+: s
  · rw [decide_eq_true htaken, if_pos rfl, if_pos htaken]
    exact .of_run c rfl
  rw [decide_eq_false htaken, if_neg (by decide), if_neg htaken,
    startsWith_textBlock h0 (by decide) hroom, run_mem_ok_bind]
  by_cases happroved : serverUserApprove <+: s
  · rw [decide_eq_true happroved, if_pos rfl, if_pos happroved]
    exact .of_run c rfl
  rw [decide_eq_false happroved, if_neg (by decide), if_neg happroved,
    strlen_textBlock h0 hroom, run_mem_ok_bind]
  by_cases hempty : s = []
  · rw [if_pos (List.length_eq_zero_iff.mpr hempty), if_pos hempty]
    exact .of_run c (by rw [← hc]; rfl)
  · rw [if_neg fun h => hempty (List.length_eq_zero_iff.mp h), if_neg hempty]
    exact .of_run c rfl

include hslack hr in
/-- one that waits for the `MOTD`, -/
theorem logs_motd (hc : c.state = .motd) :
    Logs c ((loginSelected slack userName true r).run c)
    (loginReaction name .motd (.server (got r))) := by
  have hroom : slack ≠ 0 := by omega
  unfold loginSelected
  rw [Eff.run_get_bind, hc]
  refine logs_readString c hr name (.inr (.inr rfl)) fun s h0 => ?_
  rw [loginString, strlen_textBlock h0 hroom, run_mem_ok_bind]
  by_cases hempty : s = []
  · rw [if_pos (List.length_eq_zero_iff.mpr hempty), if_pos hempty]
    exact .of_run c (by rw [← hc]; rfl)
  rw [if_neg fun h => hempty (List.length_eq_zero_iff.mp h), if_neg hempty,
    startsWith_textBlock h0 (by decide) hroom, run_mem_ok_bind]
  by_cases hmotd : serverMotd <+: s
  · rw [decide_eq_true hmotd, if_pos rfl, if_pos hmotd]
    exact ⟨[_], by simp [print, goto]; rfl⟩
  · rw [decide_eq_false hmotd, if_neg (by decide), if_neg hmotd]
    exact .of_run c rfl

include hslack in
/-- and one that sends the name, whatever is ready. -/
theorem logs_name (hc : c.state = .name) (ready : Bool) (i : Input) :
    Logs c ((loginSelected slack userName ready r).run c)
    (loginReaction (cstr userName) .name i) := by
  have hrun : (loginSelected slack userName ready r).run c = (sendName slack userName).run c := by
    unfold loginSelected
    rw [Eff.run_get_bind, hc]
  rw [hrun, loginReaction_name]
  cases hname : cstr userName with
  | ok n =>
      rw [run_sendName hslack c hname]
      exact ⟨[], by simp⟩
  | error f =>
      rw [run_sendName_of_error c hname]
      exact .of_run c rfl

/-- In the other cases nothing is read, and nothing done. -/
theorem logs_nothing (hstart : c.state ≠ .start) (hname : c.state ≠ .name) {ready : Bool}
    (hread : (ready && c.reads) = false) : Logs c ((loginSelected slack userName ready r).run c)
      (loginReaction name c.state (loginInput c ready r)) := by
  have hrun : (loginSelected slack userName ready r).run c = (.ok (), c) := by
    unfold loginSelected
    rw [Eff.run_get_bind]
    cases ready <;> cases hc : c.state <;> simp_all [Login.reads]
  have hquiet : loginReaction name c.state .nothing = (.ok c.state, []) := by
    cases hc : c.state <;> simp_all [loginReaction]
  rw [hrun, loginInput, hread, if_neg (by decide), hquiet]
  exact .of_run c rfl

include hslack hr in
/-- **The login** does what is done with what it reads. -/
theorem logs_loginSelected (hstart : c.state ≠ .start) (ready : Bool) :
    Logs c ((loginSelected slack userName ready r).run c)
      (loginReaction (cstr userName) c.state (loginInput c ready r)) := by
  by_cases hname : c.state = .name
  · rw [hname]
    exact logs_name hslack c userName hname ready _
  by_cases hread : (ready && c.reads) = true
  swap
  · exact logs_nothing c _ userName hstart hname (Bool.eq_false_iff.mpr hread)
  obtain ⟨rfl, hreads⟩ := Bool.and_eq_true_iff.mp hread
  rw [loginInput, hread, if_pos rfl]
  cases hc : c.state with
  | start => exact absurd hc hstart
  | hello => exact logs_hello hslack c hr _ userName hc
  | name => exact absurd hc hname
  | approval => exact logs_approval hslack c hr _ userName hc
  | motd => exact logs_motd hslack c hr _ userName hc
  | done => simp [Login.reads, hc] at hreads

end Login

end ME2U.Hw1Client
