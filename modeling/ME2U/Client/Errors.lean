import ME2U.Client.Dispatch

/-!
# Where the client calls `error`

`error` prints its argument and exits. In `regular_chat` it is called for a line that is no command,
for the end of the stream, and in `msg_confirmed` for a name that the client has no user of.

* `stopsOnly_processMsg`, `stopsOnly_chatInput`: no message and no command gets to a call of it.
* `error_of_run_msgConfirmed`: a confirmation does only for an unknown name.
* `chatRead_cases`: what any read does, a NUL in it or not.
-/

namespace ME2U.Client

/-- An end other than in `error`. -/
def NoError (h : Halt) : Prop := ∀ msg, h ≠ .error msg

/-- Where only other ends are possible, there is no call of `error`. -/
theorem ne_error_of_stopsOnly {σ α : Type} {m : Eff σ Halt α} (h : Eff.StopsOnly NoError m) (c : σ)
    (msg : String) : (m.run c).1 ≠ .error (.error msg) :=
  fun herr => h c _ herr msg rfl

/-- An access to memory does not call `error`. -/
theorem stopsOnly_mem {σ α : Type} (x : Except Fault α) :
    Eff.StopsOnly NoError (mem x : Eff σ Halt α) := by
  refine .lift fun e he msg heq => ?_
  subst heq
  cases x <;> cases he

/-- Nor does a write, -/
theorem stopsOnly_write (fd : Fd) (bs : Bytes) : Eff.StopsOnly NoError (write fd bs) := .modify _

/-! ## The handlers -/

/-- nor the filing of a message, -/
theorem stopsOnly_processMsg (slack : Slack) (msg : Block) :
    Eff.StopsOnly NoError (processMsg slack msg) := by
  refine .bind (stopsOnly_mem _) fun n => .bind (stopsOnly_mem _) fun name => .get_bind fun c => ?_
  refine .bind (stopsOnly_mem _) fun found => ?_
  cases found
  all_goals refine .bind ?_ fun i => ?_
  case none.refine_1 =>
    refine .bind (stopsOnly_mem _) fun username => .get_bind fun c => ?_
    exact .bind (.modify _) fun _ => .pure _
  case some.refine_1 => exact .pure _
  all_goals
    refine .bind (stopsOnly_mem _) fun text => .get_bind fun c => ?_
    cases c.users[i]? with
    | some u => exact stopsOnly_write _ _
    | none => exact stopsOnly_mem _

/-- nor the answer to it, -/
theorem stopsOnly_confirmFrom (sender : Block) : Eff.StopsOnly NoError (confirmFrom sender) := by
  refine .bind (stopsOnly_mem _) fun _ => .bind (stopsOnly_mem _) fun _ =>
    .bind (stopsOnly_mem _) fun _ => ?_
  exact .bind (stopsOnly_mem _) fun _ => .bind (stopsOnly_mem _) fun _ => stopsOnly_write _ _

/-- nor a line of output, -/
theorem stopsOnly_writeLines (lines : List Bytes) : Eff.StopsOnly NoError (writeLines lines) := by
  induction lines with
  | nil => exact .pure _
  | cons line lines ih =>
      exact .bind (stopsOnly_write _ _) fun _ => .bind (stopsOnly_write _ _) fun _ => ih

/-- nor the list of users, -/
theorem stopsOnly_listUsers (userList : Block) : Eff.StopsOnly NoError (listUsers userList) :=
  .bind (stopsOnly_mem _) fun _ => stopsOnly_writeLines _

/-- nor the report of an unknown receiver, -/
theorem stopsOnly_noUserExists (string : Block) : Eff.StopsOnly NoError (noUserExists string) := by
  refine .bind (stopsOnly_write _ _) fun _ => .bind (stopsOnly_mem _) fun _ => ?_
  exact .bind (stopsOnly_write _ _) fun _ => stopsOnly_write _ _

/-- nor that of somebody who left. -/
theorem stopsOnly_someoneExited (string : Block) : Eff.StopsOnly NoError (someoneExited string) :=
  .bind (stopsOnly_write _ _) fun _ => .bind (stopsOnly_mem _) fun _ => stopsOnly_write _ _

/-- The message of `msg_confirmed` for a name that the client does not know.
Source: `client.c` `msg_confirmed` (line 440) -/
def neverExisted : String := "Got msg confirm msg for a user that never existed"

/-- A confirmation for a name: its user is found, or there is none. -/
theorem run_msgConfirmed (slack : Slack) {c : Process}
    (hc : ∀ u ∈ c.users, 0 ∉ u.username) {name : Bytes} (hname : 0 ∉ name) (n : ℕ) :
    (msgConfirmed slack (textBlock name (n + 1))).run c =
      if Overread slack name c.users then (.error (.fault .outOfBounds), c)
      else
        match c.users.findIdx? (·.username == name) with
        | none => (.error (.error neverExisted), c)
        | some i => (.ok (),
            { c with users := c.users.modify i fun u => { u with otCnt := u.otCnt + 1 } }) := by
  unfold msgConfirmed
  rw [Eff.run_get_bind, findUser_eq slack hc hname]
  split_ifs
  · rfl
  · rw [run_mem_ok_bind]
    cases c.users.findIdx? (·.username == name) <;> rfl

/-- **A confirmation that ends in `error`** is for a name that no user has, and changes nothing. -/
theorem error_of_run_msgConfirmed {slack : Slack} {c : Process} (hc : ∀ u ∈ c.users, 0 ∉ u.username)
    {name : Bytes} (hname : 0 ∉ name) {n : ℕ} {msg : String}
    (h : ((msgConfirmed slack (textBlock name (n + 1))).run c).1 = .error (.error msg)) :
    msg = neverExisted ∧ ((msgConfirmed slack (textBlock name (n + 1))).run c).2 = c ∧
      ∀ u ∈ c.users, u.username ≠ name := by
  rw [run_msgConfirmed slack hc hname] at h ⊢
  by_cases hslack : Overread slack name c.users
  · rw [if_pos hslack] at h
    cases h
  · rw [if_neg hslack] at h ⊢
    cases hfind : c.users.findIdx? (·.username == name) with
    | some i =>
        rw [hfind] at h
        cases h
    | none =>
        rw [hfind] at h
        cases h
        exact ⟨rfl, rfl, by simpa using List.findIdx?_eq_none_iff.mp hfind⟩

/-! ## One read -/

/-- What a client sees of the bytes of a read: those before the first NUL. -/
def seen (f : Bytes) : Bytes := f.takeWhile (· ≠ 0)

/-- The client sees a frame up to its first NUL. -/
theorem cstr_readBuf_seen {f : Bytes} (hf : f.length < maxline) :
    cstr (readBuf f) = .ok (seen f) := by
  obtain ⟨n, hn⟩ := Nat.exists_eq_add_of_lt hf
  have hroom : maxline - f.length = n + 1 := by omega
  unfold readBuf
  rw [hroom]
  exact cstr_textBlock_takeWhile f n

/-- What it sees has none. -/
theorem zero_notMem_seen (f : Bytes) : 0 ∉ seen f :=
  zero_notMem_of_cstr (cstr_textBlock_takeWhile f 0)

/-- Bytes without a NUL are seen, and then what is behind them. -/
theorem seen_append {x : Bytes} (hx : 0 ∉ x) (y : Bytes) : seen (x ++ y) = x ++ seen y := by
  apply List.takeWhile_append_of_pos
  intro b hb
  rw [decide_eq_true_eq]
  rintro rfl
  exact hx hb

/-- It sees all of a frame without a NUL. -/
theorem seen_of_notMem {f : Bytes} (h : 0 ∉ f) : seen f = f := by
  simpa [seen] using seen_append h []

/-- **Any read** is a fault in the buffer, leaves the text pending, or completes a frame. -/
theorem chatRead_cases (slack : Slack) {p f : Bytes} (hp : 0 ∉ p) (hlim : p.length < bufLimit)
    (hf : f.length < maxline) {c : Process} (hc : c.buf = .of p) :
    (∃ e s, (chatRead slack f).run c = (.error (.fault e), c.withBuf s)) ∨
      ((p ++ seen f).length < bufLimit ∧ ¬ending <:+ p ++ seen f ∧
        (chatRead slack f).run c = (.ok .input, c.withBuf (.of (p ++ seen f)))) ∨
      ∃ body, p ++ seen f = body ++ ending ∧
        (chatRead slack f).run c =
          (serverFrame slack (textBlock body 4)).run (c.withBuf (.of [])) := by
  have hlen : (seen f).length < maxline := (List.takeWhile_sublist _).length_le.trans_lt hf
  have hcall := run_processString hp (cstr_readBuf_seen hf) hlen hlim
  rw [← hc] at hcall
  unfold chatRead
  by_cases hover : bufLimit ≤ (p ++ seen f).length
  · rw [if_pos hover] at hcall
    exact .inl ⟨_, _, Eff.run_zoom_bind_error hcall _⟩
  rw [if_neg hover] at hcall
  by_cases hshort : (p ++ seen f).length < 4
  · rw [if_pos hshort] at hcall
    exact .inl ⟨_, _, Eff.run_zoom_bind_error hcall _⟩
  rw [if_neg hshort] at hcall
  by_cases hend : ending <:+ p ++ seen f
  · obtain ⟨body, hbody⟩ := hend
    rw [receive_of_isSuffix hbody.symm] at hcall
    exact .inr (.inr ⟨body, hbody.symm, Eff.run_zoom_bind_ok hcall _⟩)
  · rw [receive_of_not_isSuffix hend] at hcall
    exact .inr (.inl ⟨Nat.not_le.mp hover, hend, Eff.run_zoom_bind_ok hcall _⟩)

/-! ## Commands -/

/-- A command that a user types, other than `/logout`; a message goes up to the end of the line. -/
inductive Command
  | help
  | listu
  | chat (receiver message : Bytes)

namespace Command

/-- The line that is typed. -/
def line : Command → Bytes
  | help => userHelp ++ [10]
  | listu => userListu ++ [10]
  | chat receiver message => userChat ++ 32 :: (receiver ++ 32 :: message)

/-- The receiver is a word, and the frame with the message has room in the 4096 bytes of a
`recv`. -/
def WellFormed : Command → Prop
  | chat receiver message => receiver ≠ [] ∧ IsWord receiver ∧ 0 ∉ message ∧
      (msgTo ++ 32 :: (receiver ++ 32 :: message) ++ ending).length ≤ 4096
  | _ => True

end Command

/-- The command that is run for it. -/
def Command.selects : Command → UserCommand
  | help => .help
  | listu => .listu
  | chat _ _ => .chat

/-- It is run whatever is in `read_buf` behind the line. -/
theorem Command.command_line (cmd : Command) (rest : Block) :
    Client.command (cells cmd.line ++ rest) = .ok (some cmd.selects) := by
  have hline : ∃ w c t, IsWord (47 :: w) ∧ IsSep c ∧ cmd.line = 47 :: w ++ c :: t ∧
      pick UserCommand.text UserCommand.all (47 :: w) = some cmd.selects := by
    cases cmd with
    | help => exact ⟨userHelp.tail, 10, [], by decide, by decide, rfl, by decide⟩
    | listu => exact ⟨userListu.tail, 10, [], by decide, by decide, rfl, by decide⟩
    | chat receiver message =>
        have hpick : pick UserCommand.text UserCommand.all (47 :: userChat.tail) = some .chat := by
          decide
        exact ⟨userChat.tail, 32, _, by decide, by decide, rfl, hpick⟩
  obtain ⟨w, c, t, hw, hc, heq, hpick⟩ := hline
  have hblk : cells cmd.line ++ rest = cells (47 :: w) ++ some c :: (cells t ++ rest) := by
    rw [heq]
    simp [cells]
  rw [hblk, command_cells hw hc, hpick]

/-- **No command** ends in `error`. -/
theorem stopsOnly_chatInput (slack : Slack) (cmd : Command) (rest : Block) :
    Eff.StopsOnly NoError (chatInput slack (cells cmd.line ++ rest)) := by
  rw [chatInput_of_command slack (cmd.command_line rest)]
  cases cmd with
  | help => exact .bind (stopsOnly_write _ _) fun _ => .pure _
  | listu =>
      refine .bind (stopsOnly_mem _) fun temp => .bind (stopsOnly_mem _) fun s => ?_
      exact .bind (stopsOnly_write _ _) fun _ => .pure _
  | chat receiver message =>
      refine .bind (stopsOnly_processMsg _ _) fun _ => .bind (stopsOnly_mem _) fun newStr => ?_
      exact .bind (stopsOnly_write _ _) fun _ => .pure _

end ME2U.Client
