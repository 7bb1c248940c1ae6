import ME2U.Client.Desk

/-!
# Which messages are seen

A message that `process_msg` handles should be seen: its user is active, and the window that was
started for the user has not exited and gets the message through its pipe.

* `Filing.live_iff`: a message is seen iff its user is new or has an open window.
* `DeskRun.filings_live_iff`: so it is with every message of every run.
-/

namespace ME2U.Client

/-- The message was written to the pipe of an open window of its user, who is active. -/
def Filing.Live (f : Filing) : Prop :=
  ∃ w text, Addressed f.msg w text ∧ ∃ u ∈ f.after.client.users, u.username = w ∧ u.active = true ∧
    (∃ win ∈ f.after.windows, win.title = w ∧ win.wrt = u.wrt ∧ win.exited = false) ∧
    f.after.client.wrote = f.before.client.wrote ++ [(.pipe u.wrt, text)]

/-- The user of the message has had a window, and that has exited. -/
def Filing.Closed (f : Filing) : Prop :=
  ∃ w text, Addressed f.msg w text ∧ ∃ u, f.before.client.users.find? (·.username == w) = some u ∧
    ∃ win ∈ f.before.windows, win.wrt = u.wrt ∧ win.exited = true

/-! ## The calls of `process_msg` -/

/-- `process_msg` is called for a string of the server whose handler is that of `FROM`. -/
theorem fromMsg_eq_some_iff {blk msg : Block} :
    fromMsg blk = .ok (some msg) ↔ ∃ n, wordLength blk = .ok n ∧
      firstSelected ServerVerb.text blk n ServerVerb.all = .ok (some .fromUser) ∧
        msg = blk.drop (n + 1) := by
  constructor
  · intro h
    obtain ⟨n, hn, h⟩ := exists_of_bind_eq_ok h
    obtain ⟨v, hv, h⟩ := exists_of_bind_eq_ok h
    have hsome := Except.ok.inj h
    split_ifs at hsome with hfrom
    subst hfrom
    exact ⟨n, hn, hv, (Option.some.inj hsome).symm⟩
  · rintro ⟨n, hn, hv, rfl⟩
    unfold fromMsg
    rw [hn, ok_bind, hv, ok_bind, if_pos rfl]

/-- `process_msg` is called for a line whose command is `/chat`. -/
theorem chatMsg_eq_some_iff {blk msg : Block} :
    chatMsg blk = .ok (some msg) ↔
      command blk = .ok (some .chat) ∧ msg = (blk.drop userChat.length).drop 1 := by
  constructor
  · intro h
    obtain ⟨c, hc, h⟩ := exists_of_bind_eq_ok h
    have hsome := Except.ok.inj h
    split_ifs at hsome with hchat
    subst hchat
    exact ⟨hc, (Option.some.inj hsome).symm⟩
  · rintro ⟨hc, rfl⟩
    unfold chatMsg
    rw [hc, ok_bind, if_pos rfl]

/-- For a string of the server, `process_msg` is called where `fromMsg` says so. -/
theorem serverFrame_of_fromMsg {blk msg : Block}
    (h : fromMsg blk = .ok (some msg)) (slack : Slack) :
    serverFrame slack blk = handler slack msg .fromUser := by
  obtain ⟨n, hn, hv, rfl⟩ := fromMsg_eq_some_iff.mp h
  rw [serverFrame_eq, hn]
  show mem (firstSelected ServerVerb.text blk n ServerVerb.all) >>= _ = _
  rw [hv]
  rfl

/-- For a line, `process_msg` is called where `chatMsg` says so. -/
theorem chatInput_of_chatMsg {blk msg : Block} (h : chatMsg blk = .ok (some msg)) (slack : Slack) :
    chatInput slack blk = (do
      processMsg slack msg
      let newStr ← mem (toFrame slack (blk.drop userChat.length))
      write .sock newStr
      pure .again) := by
  obtain ⟨hc, rfl⟩ := chatMsg_eq_some_iff.mp h
  exact chatInput_of_command slack hc

/-- What is read from the server changes nothing before `process_msg` is called. -/
theorem exists_of_readCall {b : Bytes} {c c₁ : Process} {msg : Block}
    (h : readCall b c = some (msg, c₁)) :
    ∃ s processStr, c₁ = c.withBuf s ∧ (processRead b).run c = (.ok (some processStr), c₁) ∧
      fromMsg processStr = .ok (some msg) := by
  unfold readCall at h
  split at h
  · next processStr c' hrun =>
      cases hcall : fromMsg processStr with
      | error f => rw [hcall] at h; cases h
      | ok o =>
          cases o with
          | none => rw [hcall] at h; cases h
          | some m =>
              rw [hcall] at h
              obtain ⟨rfl, rfl⟩ := Prod.mk.inj (Option.some.inj h)
              refine ⟨((processString (readBuf b)).run c.buf).2, processStr, ?_, hrun, hcall⟩
              have hstate := congrArg Prod.snd hrun
              exact hstate.symm
  · cases h

/-- **The calls for what is read** from the server are those that `regular_chat` makes. -/
theorem run_chatRead_of_readCall {b : Bytes} {c c₁ : Process} {msg : Block}
    (h : readCall b c = some (msg, c₁)) (slack : Slack) :
    (chatRead slack b).run c =
      (do
        processMsg slack msg
        confirmFrom msg
        pure .again : Chat Next).run c₁ := by
  obtain ⟨s, processStr, -, hrun, hcall⟩ := exists_of_readCall h
  unfold chatRead
  have hread : (Eff.zoom Process.buf (fun s c => { c with buf := s }) Halt.fault
      (processString (readBuf b))).run c = (.ok (some processStr), c₁) := hrun
  rw [Eff.run_bind_ok hread]
  exact congrArg (Eff.run · c₁) (serverFrame_of_fromMsg hcall slack)

/-- **The calls for a line** are those that `regular_chat` makes. -/
theorem run_chatInput_of_inputCall {blk msg : Block} {c c₁ : Process}
    (h : inputCall blk c = some (msg, c₁)) (slack : Slack) :
    c₁ = c ∧ chatInput slack blk = (do
      processMsg slack msg
      let newStr ← mem (toFrame slack (blk.drop userChat.length))
      write .sock newStr
      pure .again) := by
  unfold inputCall at h
  cases hcall : chatMsg blk with
  | error f => rw [hcall] at h; cases h
  | ok o =>
      cases o with
      | none => rw [hcall] at h; cases h
      | some m =>
          rw [hcall] at h
          obtain ⟨rfl, rfl⟩ := Prod.mk.inj (Option.some.inj h)
          exact ⟨rfl, chatInput_of_chatMsg hcall slack⟩

/-! ## The pipes are not watched -/

/-- `rset` has only the terminal and the socket. -/
def Loop.PipesUnwatched (l : Loop) : Prop := ∀ fd ∈ l.rset, fd < 4

/-- So no user has anything to be read. -/
theorem Process.PipesApart.not_watched {c : Process} (hc : c.PipesApart) {rset : List ℕ}
    (hrset : ∀ fd ∈ rset, fd < 4) {u : UserStruct} (hu : u ∈ c.users) :
    ¬(u.active ∧ (u.rd ∈ rset ∨ u.wrt ∈ rset)) := by
  have hends := hc.ends (u.rd, u.wrt) (List.mem_map_of_mem hu)
  rintro ⟨-, hmem | hmem⟩
  · exact absurd (hrset _ hmem) (Nat.not_lt.mpr hends.1)
  · exact absurd (hrset _ hmem) (Nat.not_lt.mpr hends.2)

/-- The descriptors of windows are not in the set, so that the loop does nothing. -/
theorem run_anyChildrenReplied {slack : Slack} {rset : List ℕ} (hrset : ∀ fd ∈ rset, fd < 4)
    {c : Process} (hc : c.PipesApart) (pipe : ℕ → ReadResult) (is : List ℕ) (blk : Block) :
    (anyChildrenReplied slack rset pipe is blk).run c = (.ok (), c) := by
  induction is with
  | nil => rfl
  | cons i is ih =>
      unfold anyChildrenReplied
      rw [Eff.run_get_bind]
      cases hu : c.users[i]? with
      | none => rfl
      | some u =>
          dsimp only
          rw [if_neg (hc.not_watched hrset (List.mem_of_getElem? hu))]
          exact ih

/-! ## A message -/

section Filing

variable {slack : Slack} {pid : ℕ → ℕ} {d : Desk} {msg : Block} {c : Process}

/-- A message for a new user is not filed in a closed window. -/
theorem Filing.not_closed_of_find?_eq_none {w text : Bytes} {after : Desk}
    (hmsg : Addressed msg w text) (hnone : d.client.users.find? (·.username == w) = none) :
    ¬Filing.Closed ⟨msg, d, after⟩ := by
  rintro ⟨w', text', hmsg', u, hfind, -⟩
  obtain ⟨rfl, -⟩ := hmsg.unique hmsg'
  rw [hnone] at hfind
  cases hfind

/-- A new user gets a window, and the message goes there. -/
theorem Filing.live_of_find?_eq_none {w text : Bytes} (hmsg : Addressed msg w text)
    (hnew : c = { d.client.addUser w with
      wrote := d.client.wrote ++ [(.pipe (d.client.nextFd + 1), text)] }) :
    Filing.Live ⟨msg, d, d.withClient pid c⟩ := by
  have husers : c.users =
      d.client.users ++ [⟨w, 0, 0, d.client.nextFd, d.client.nextFd + 1, true⟩] := by
    rw [hnew]
    rfl
  refine ⟨w, text, hmsg, ⟨w, 0, 0, d.client.nextFd, d.client.nextFd + 1, true⟩,
    ?_, rfl, rfl, ?_, ?_⟩
  · show _ ∈ c.users
    rw [husers]
    simp
  · refine ⟨windowFor pid ⟨w, 0, 0, d.client.nextFd, d.client.nextFd + 1, true⟩, ?_, rfl, rfl, rfl⟩
    refine mem_windows_withClient.mpr (.inr ⟨_, ?_, rfl⟩)
    rw [husers, List.drop_left]
    simp
  · show c.wrote = _
    rw [hnew]

/-- A message for a user that is there is seen iff the window has not exited. -/
theorem Filing.live_iff_of_find?_eq_some (hd : d.Tidy) {w text : Bytes}
    (hmsg : Addressed msg w text)
    {u : UserStruct} (hfind : d.client.users.find? (·.username == w) = some u)
    (hold : c = { d.client with wrote := d.client.wrote ++ [(.pipe u.wrt, text)] }) :
    Filing.Live ⟨msg, d, d.withClient pid c⟩ ↔
      ¬Filing.Closed ⟨msg, d, d.withClient pid c⟩ := by
  have hu : u ∈ d.client.users := List.mem_of_find?_eq_some hfind
  have hname : u.username = w := by simpa using List.find?_some hfind
  have husers : c.users = d.client.users := by rw [hold]
  have hwindows : (d.withClient pid c).windows = d.windows := by
    simp [Desk.withClient, husers]
  constructor
  · rintro ⟨w₁, text₁, hmsg₁, v, hv, -, -, ⟨win, hwin, -, hwrt, hopen⟩, hwrote⟩
    rintro ⟨w₂, text₂, hmsg₂, u', hfind', win', hwin', hwrt', hexited⟩
    obtain ⟨rfl, -⟩ := hmsg.unique hmsg₁
    obtain ⟨rfl, -⟩ := hmsg.unique hmsg₂
    obtain rfl : u = u' := Option.some.inj (hfind.symm.trans hfind')
    -- the message went to the pipe of `u`, whose window has exited
    have hpipe : v.wrt = u.wrt := by
      have hlog : d.client.wrote ++ [(Fd.pipe u.wrt, text)] =
          d.client.wrote ++ [(Fd.pipe v.wrt, text₁)] := by
        have hc : c.wrote = d.client.wrote ++ [(Fd.pipe u.wrt, text)] := by rw [hold]
        exact hc.symm.trans hwrote
      have hboth : v.wrt = u.wrt ∧ text₁ = text := by
        simpa using (List.append_cancel_left hlog).symm
      exact hboth.1
    rw [hwindows] at hwin
    obtain rfl : win = win' := hd.eq_of_wrt hwin hwin' (hwrt.trans (hpipe.trans hwrt'.symm))
    rw [hopen] at hexited
    cases hexited
  · intro hno
    obtain ⟨win, hwin, htitle, hwrt⟩ := hd.exists_window hu
    have hopen : win.exited = false := by
      by_contra hexited
      exact hno ⟨w, text, hmsg, u, hfind, win, hwin, hwrt, by simpa using hexited⟩
    refine ⟨w, text, hmsg, u, ?_, hname, hd.active u hu win hwin hwrt hopen,
      ⟨win, ?_, htitle.trans hname, hwrt, hopen⟩, ?_⟩
    · show u ∈ c.users
      rwa [husers]
    · rwa [hwindows]
    · show c.wrote = _
      rw [hold]

/-- **One message** is seen iff its user is new or has an open window. -/
theorem Filing.live_iff (hd : d.Tidy) (hrun : (processMsg slack msg).run d.client = (.ok (), c)) :
    Filing.Live ⟨msg, d, d.withClient pid c⟩ ↔
      ¬Filing.Closed ⟨msg, d, d.withClient pid c⟩ := by
  obtain ⟨w, text, hmsg, ⟨u, hfind, hold⟩ | ⟨hnone, hnew⟩⟩ :=
    processMsg_cases (fun u hu => (hd.wellFormed.isWord hu).zero_notMem) hrun
  · exact Filing.live_iff_of_find?_eq_some hd hmsg hfind hold
  · exact iff_of_true (Filing.live_of_find?_eq_none hmsg hnew)
      (Filing.not_closed_of_find?_eq_none hmsg hnone)

end Filing

/-! ## One iteration -/

/-- What holds in `regular_chat`, with what `fork` returns in this iteration. -/
structure Loop.Sound (pid : ℕ → ℕ) (l : Loop) : Prop where
  tidy : l.desk.Tidy
  forking : l.desk.Forking pid
  unwatched : l.PipesUnwatched
  filings : ∀ f ∈ l.filings, f.Live ↔ ¬f.Closed

section Iteration

variable {slack : Slack} {pid : ℕ → ℕ} {l : Loop}

/-- A part that works on the client. -/
theorem Loop.Sound.onClient {α : Type} {m : Chat α} (h : l.Sound pid)
    (hfrom : Process.From l.desk.client (m.run l.desk.client).2) :
    ((onClient pid m).run l).2.Sound pid := by
  rw [run_onClient]
  exact ⟨h.tidy.withClient h.forking (hfrom.withSocket l.stdineof), h.forking.withClient,
    h.unwatched, h.filings⟩

/-- A part that comes from the state before it keeps the loop sound. -/
theorem keeps_sound_onClient {α : Type} {m : Chat α} (hm : ∀ c, Eff.Keeps (Process.From c) m) :
    Eff.Keeps (Loop.Sound pid) (onClient pid m) :=
  fun l hl => hl.onClient (hm l.desk.client _ hl.tidy.from_client)

/-- The end of the input does, -/
theorem keeps_sound_shutInput : Eff.Keeps (Loop.Sound pid) shutInput := by
  refine .bind (.modify fun l hl => ⟨hl.tidy, hl.forking, ?_, hl.filings⟩) fun _ => .pure _
  intro fd hfd
  exact hl.unwatched fd (List.mem_of_mem_filter hfd)

/-- A call that is put on record in a state of the same users. -/
theorem Loop.Sound.record (h : l.Sound pid) {call : Option (Block × Process)}
    (hcall : ∀ x ∈ call, ∃ s, x.2 = l.desk.client.withBuf s) :
    ((record slack pid call).run l).2.Sound pid := by
  cases call with
  | none => exact h
  | some x =>
      obtain ⟨msg, c⟩ := x
      obtain ⟨s, rfl⟩ : ∃ s, c = l.desk.client.withBuf s := hcall (msg, c) rfl
      have htidy := h.tidy.withBuf s
      show Loop.Sound pid ((Eff.modify _ : LoopM Unit).run l).2
      rw [Eff.run_modify]
      dsimp only
      split
      · next c' hrun =>
          refine ⟨h.tidy, h.forking, h.unwatched, ?_⟩
          rw [List.forall_mem_append]
          refine ⟨h.filings, fun f hf => ?_⟩
          obtain rfl := List.mem_singleton.mp hf
          exact Filing.live_iff htidy hrun
      · exact h

/-- a string of the server does, -/
theorem keeps_sound_serverString (slack : Slack) (b : Bytes) :
    Eff.Keeps (Loop.Sound pid) (serverString slack pid b) := by
  refine .get_bind fun l hl => Eff.Keeps.bind_of_run (hl.record ?_) fun _ => ?_
  · intro x hx
    have hcall : readCall b l.desk.client = some (x.1, x.2) := hx
    obtain ⟨s, -, hstate, -⟩ := exists_of_readCall hcall
    exact ⟨s, hstate⟩
  · exact .bind (keeps_sound_onClient fun c => keeps_from_chatRead c slack b) fun _ => .pure _

/-- whatever is read, -/
theorem keeps_sound_serverPart (slack : Slack) (server : ReadResult) :
    Eff.Keeps (Loop.Sound pid) (serverPart slack pid server) := by
  cases server with
  | eof => exact .bind .get fun _ => .ite (fun _ => .pure _) fun _ => .stop _
  | failed => exact keeps_sound_serverString slack []
  | data b => exact keeps_sound_serverString slack b

/-- and a line of the user, -/
theorem keeps_sound_inputLine (slack : Slack) (blk : Block) :
    Eff.Keeps (Loop.Sound pid) (inputLine slack pid blk) := by
  refine .get_bind fun l hl => Eff.Keeps.bind_of_run (hl.record ?_) fun _ => ?_
  · intro x hx
    have hcall : inputCall blk l.desk.client = some (x.1, x.2) := hx
    obtain ⟨hstate, -⟩ := run_chatInput_of_inputCall hcall slack
    exact ⟨l.desk.client.buf, hstate⟩
  · refine .bind (keeps_sound_onClient fun c => keeps_from_chatInput c slack blk) fun _ => ?_
    exact .ite (fun _ => keeps_sound_shutInput) fun _ => .pure _

/-- whatever is typed, -/
theorem keeps_sound_inputPart (slack : Slack) (blk : Block) (typed : ReadResult) :
    Eff.Keeps (Loop.Sound pid) (inputPart slack pid blk typed) := by
  cases typed with
  | eof => exact keeps_sound_shutInput
  | failed => exact keeps_sound_inputLine slack blk
  | data line => exact keeps_mem_bind fun _ _ => keeps_sound_inputLine slack _

/-- and so the rest of an iteration. -/
theorem keeps_sound_restOfIteration (slack : Slack) (ready : List ℕ) (typed : ReadResult)
    (pipe : ℕ → ReadResult) (r : Next × Block) :
    Eff.Keeps (Loop.Sound pid) (restOfIteration slack pid ready typed pipe r) := by
  refine .ite (fun _ => .pure _) fun _ => .ite (fun _ => keeps_sound_inputPart slack _ typed)
    fun _ => ?_
  -- no window is among the descriptors that are ready
  refine .get_bind fun l hl => Eff.Keeps.bind_of_run (hl.onClient ?_) fun _ => .pure _
  rw [run_anyChildrenReplied hl.unwatched hl.tidy.pipesApart]
  exact hl.tidy.from_client

/-- **One iteration.** -/
theorem keeps_sound_iteration (slack : Slack) {ready : List ℕ} (hready : ∀ fd ∈ ready, fd < 4)
    (server typed : ReadResult) (pipe : ℕ → ReadResult) :
    Eff.Keeps (Loop.Sound pid) (iteration slack pid ready server typed pipe) := by
  have hrest : ∀ r, Eff.Keeps (Loop.Sound pid) (restOfIteration slack pid ready typed pipe r) :=
    fun r => keeps_sound_restOfIteration slack ready typed pipe r
  refine .bind (.modify fun l hl => ⟨hl.tidy, hl.forking, hready, hl.filings⟩) fun _ => ?_
  exact .ite (fun _ => .bind (keeps_sound_serverPart slack server) hrest) fun _ => hrest _

end Iteration

/-! ## A message in an iteration -/

section Message

variable {slack : Slack} {c : Process} {w t : Bytes} (hslack : ¬Overread slack w c.users)
  (hbuf : c.buf = .of []) (hc : ∀ u ∈ c.users, 0 ∉ u.username) (hw : IsWord w) (ht : 0 ∉ t)
  (hlen : (w ++ 32 :: t).length ≤ 30)

/-- A part on the client that returns, and does not write to a socket that is shut down. -/
theorem run_onClient_bind_ok {α β : Type} (pid : ℕ → ℕ) {m : Chat α} (l : Loop)
    {a : α} {c' : Process} (h : m.run l.desk.client = (.ok a, c'))
    (hshut : l.stdineof = true → c'.wrote = l.desk.client.wrote) (k : α → LoopM β) :
    (onClient pid m >>= k).run l = (k a).run { l with desk := l.desk.withClient pid c' } := by
  have hrun := run_withSocket_of_wrote_eq h hshut
  apply Eff.run_bind_ok
  rw [run_onClient, hrun]

/-- The frame of a message. -/
def messageFrame (w t : Bytes) : Bytes := msgFrom ++ 32 :: (w ++ 32 :: t) ++ ending

include hbuf hw ht hlen in
/-- `process_string` returns the message. -/
theorem run_processRead_messageFrame : (processRead (messageFrame w t)).run c =
    (.ok (some (textBlock (msgFrom ++ 32 :: (w ++ 32 :: t)) 4)), c) := by
  have hbody : 0 ∉ msgFrom ++ 32 :: (w ++ 32 :: t) :=
    zero_notMem_words (by decide) (zero_notMem_words hw.zero_notMem ht)
  have hread : IsRead (messageFrame w t) := by
    refine ⟨zero_notMem_frame hbody, ?_⟩
    have hfrom : msgFrom.length = 4 := by decide
    unfold messageFrame maxline
    rw [List.length_append, List.length_append, List.length_cons, length_ending]
    omega
  have hq : Manageable ([] ++ messageFrame w t) := by
    refine ⟨?_, ?_⟩
    · rw [List.nil_append, messageFrame, List.length_append]
      exact Nat.le_add_left 4 _
    · have hlt := hread.2
      unfold maxline at hlt
      unfold bufLimit
      rw [List.nil_append]
      omega
  have hcall := run_processString_of_manageable (by simp) hread (by decide) hq
  rw [messageFrame, receive_of_isSuffix (List.nil_append _)] at hcall
  unfold processRead messageFrame
  rw [Eff.run_zoom, hbuf, hcall, ← hbuf]
  rfl

include hbuf hw ht hlen in
/-- A message that is read is filed. -/
theorem readCall_messageFrame :
    readCall (messageFrame w t) c = some (textBlock (w ++ 32 :: t) 4, c) := by
  have hmsg : fromMsg (textBlock (msgFrom ++ 32 :: (w ++ 32 :: t)) 4) =
      .ok (some (textBlock (w ++ 32 :: t) 4)) := by
    have hword : IsWord msgFrom := by decide
    unfold fromMsg
    simp only [wordLength_textBlock hword, drop_word, bind, Except.bind]
    rfl
  unfold readCall
  rw [run_processRead_messageFrame hbuf hw ht hlen]
  dsimp only
  rw [hmsg]
  rfl

include hslack hbuf hc hw ht hlen in
/-- A message that is read puts one call on record; the state after it. -/
theorem run_iteration_messageFrame (pid : ℕ → ℕ) (l : Loop) (hl : l.desk.client = c)
    (hopen : l.stdineof = false)
    (typed : ReadResult) (pipe : ℕ → ReadResult) :
    ∃ u ∈ (c.withUser w).users, u.username = w ∧
      (iteration slack pid [sockFd] (.data (messageFrame w t)) typed pipe).run l =
        (.ok .again, { l with
          rset := [sockFd]
          desk := l.desk.withClient pid { c.withUser w with
            wrote := c.wrote ++ [(.pipe u.wrt, t)] ++
              [(.sock, confirmMsgFrom ++ 32 :: (w ++ 32 :: t ++ ending))] }
          filings := l.filings ++ [⟨textBlock (w ++ 32 :: t) 4, l.desk,
            l.desk.withClient pid { c.withUser w with wrote := c.wrote ++ [(.pipe u.wrt, t)] }⟩]
                }) := by
  subst hl
  have hcall := readCall_messageFrame hbuf hw ht hlen
  obtain ⟨u, hu, hname, hrun⟩ := run_processMsg hc hw ht (k := 4) (by decide) hslack
  refine ⟨u, hu, hname, ?_⟩
  have hconfirm := run_confirmFrom (zero_notMem_words hw.zero_notMem ht) (k := 4) (by decide)
    { l.desk.client.withUser w with wrote := l.desk.client.wrote ++ [(.pipe u.wrt, t)] }
  rw [if_pos hlen] at hconfirm
  have hchat := run_chatRead_of_readCall hcall slack
  rw [Eff.run_bind_ok hrun, Eff.run_bind_ok hconfirm, Eff.run_pure] at hchat
  let l₁ : Loop := { l with
    rset := [sockFd]
    filings := l.filings ++ [⟨textBlock (w ++ 32 :: t) 4, l.desk, l.desk.withClient pid
      { l.desk.client.withUser w with wrote := l.desk.client.wrote ++ [(.pipe u.wrt, t)] }⟩] }
  have hrecord : (record slack pid (some (textBlock (w ++ 32 :: t) 4, l.desk.client))).run
      { l with rset := [sockFd] } = (.ok (), l₁) := by
    show (Eff.modify _ : LoopM Unit).run _ = _
    rw [Eff.run_modify]
    dsimp only
    rw [hrun]
  unfold iteration
  rw [Eff.run_modify_bind, if_pos (by simp)]
  show (serverString slack pid (messageFrame w t) >>= _).run _ = _
  unfold serverString
  rw [Eff.bind_assoc, Eff.run_get_bind, hcall, Eff.bind_assoc, Eff.run_bind_ok hrecord,
    Eff.bind_assoc, run_onClient_bind_ok pid l₁ hchat fun hshut => ?_]
  · rfl
  · rw [show l₁.stdineof = false from hopen] at hshut
    cases hshut

end Message

/-! ## Runs -/

/-- What holds in a run. -/
structure DeskRun.Holds (s : DeskRun) : Prop where
  tidy : s.loop.desk.Tidy
  unwatched : s.loop.PipesUnwatched
  filings : ∀ f ∈ s.loop.filings, f.Live ↔ ¬f.Closed

/-- At the start there is no window. -/
theorem DeskRun.Initial.holds {s : DeskRun} (h : s.Initial) : s.Holds := by
  obtain rfl : s = _ := h
  refine ⟨⟨Process.wellFormed_initial, ⟨?_, ?_⟩, rfl, rfl, ?_, ?_, ?_⟩, ?_, ?_⟩
  · exact Nat.le_refl 4
  all_goals simp [Process.initial, Loop.PipesUnwatched]

/-- Something may have been read already. -/
theorem DeskRun.holds_withBuf (buf : RecvBuf) :
    DeskRun.Holds ⟨⟨⟨Process.initial.withBuf buf, [], []⟩, [], false, []⟩, false⟩ := by
  have hholds : DeskRun.Holds ⟨⟨⟨.initial, [], []⟩, [], false, []⟩, false⟩ :=
    DeskRun.Initial.holds rfl
  exact ⟨hholds.tidy.withBuf buf, hholds.unwatched, hholds.filings⟩

/-- `select` is called with the terminal and the socket only. -/
theorem Loop.PipesUnwatched.watched {l : Loop} (h : l.PipesUnwatched) :
    ∀ fd ∈ l.watched, fd < 4 := by
  intro fd hfd
  unfold Loop.watched at hfd
  rw [List.mem_append, List.mem_cons] at hfd
  rcases hfd with hfd | rfl | hfd
  · split_ifs at hfd
    · cases hfd
    · rw [List.mem_singleton.mp hfd]
      decide
  · decide
  · exact h fd hfd

/-- **One step.** -/
theorem DeskRun.Holds.step {slack : Slack} {s s' : DeskRun} {e : DeskEvent} (h : s.Holds)
    (hst : s.Step slack e s') : s'.Holds := by
  cases e with
  | iterates ready server typed pipe pid =>
      obtain ⟨-, hready, -, -, hforks, rfl⟩ := hst
      have hkeeps : Eff.Keeps (Loop.Sound pid) (iteration slack pid ready server typed pipe) :=
        keeps_sound_iteration slack (fun fd hfd => h.unwatched.watched fd (hready fd hfd))
          server typed pipe
      have hsound := hkeeps s.loop ⟨h.tidy, hforks.forking, h.unwatched, h.filings⟩
      exact ⟨hsound.tidy, hsound.unwatched, hsound.filings⟩
  | exits n =>
      obtain rfl : s' = _ := hst
      exact ⟨h.tidy.exit n, h.unwatched, h.filings⟩
  | sigchild pids =>
      obtain ⟨-, hperm, hok, -⟩ := hst
      have hpids : ∀ p ∈ pids, ∃ z ∈ s.loop.desk.windows,
          z.exited = true ∧ z.reaped = false ∧ z.pid = p := by
        intro p hp
        obtain ⟨z, hz, rfl⟩ := List.mem_map.mp (hperm.mem_iff.mp hp)
        obtain ⟨hmem, hboth⟩ := List.mem_filter.mp hz
        obtain ⟨hexited, hreaped⟩ : z.exited = true ∧ z.reaped = false := by simpa using hboth
        exact ⟨z, hmem, hexited, hreaped, rfl⟩
      obtain ⟨d, hd, htidy⟩ := h.tidy.sigchild hpids
      obtain rfl := hok d hd
      exact ⟨htidy.reap, h.unwatched, h.filings⟩

/-- **Which messages are seen**: in every run, whatever arrives, is typed or is closed in whatever
order, a message that `process_msg` has handled is seen in an open window of its user iff that user
is new or has an open window already. -/
theorem DeskRun.filings_live_iff (slack : Slack) {s : DeskRun} (h : DeskRun.Reached slack s) :
    ∀ f ∈ s.loop.filings, f.Live ↔ ¬f.Closed := by
  have hholds : s.Holds := h.invariant (fun _ hinit => DeskRun.Initial.holds hinit)
    fun _ _ _ hs _ hst => DeskRun.Holds.step hs hst
  exact hholds.filings

/-- A client without users. -/
def quiet : DeskRun := ⟨⟨⟨.initial, [], []⟩, [], false, []⟩, false⟩

/-- A frame that it reads. -/
abbrev hello : DeskEvent :=
  .iterates [sockFd] (.data (messageFrame [97] [104])) .failed (fun _ => .failed) id

/-- The client when the message has come for the first time. -/
def greeted (active : Bool) : Process :=
  ⟨.of [], [⟨[97], 0, 0, 4, 5, active⟩], 6,
    [(.pipe 5, [104]), (.sock, confirmMsgFrom ++ 32 :: ([97] ++ 32 :: [104] ++ ending))]⟩

/-- The first message. -/
def firstFiling : Filing :=
  ⟨textBlock ([97] ++ 32 :: [104]) 4, quiet.loop.desk, quiet.loop.desk.withClient id
    { Process.initial.addUser [97] with wrote := [(.pipe 5, [104])] }⟩

/-- The client when the first message has come. -/
def windowOpen : DeskRun :=
  ⟨⟨⟨greeted true, [5], [⟨5, [97], 4, 5, false, false⟩]⟩, [sockFd], false, [firstFiling]⟩, false⟩

/-- A message opens a window; -/
theorem step_windowOpen : quiet.Step (fun _ => 1) hello windowOpen := by
  obtain ⟨u, hu, -, hrun⟩ := run_iteration_messageFrame (c := .initial) (w := [97]) (t := [104])
    (not_overread (fun _ => Nat.one_ne_zero) _ _) rfl (by simp [Process.initial]) (by decide)
      (by decide) (by decide) id
    quiet.loop rfl rfl .failed (fun _ => .failed)
  obtain rfl : u = ⟨[97], 0, 0, 4, 5, true⟩ := by
    simpa [Process.withUser, Process.addUser, Process.initial] using hu
  refine ⟨rfl, ?_, ⟨by decide, by decide⟩, trivial, ⟨fun _ _ h => h, by simp [quiet]⟩, ?_⟩
  · simp [Loop.watched]
  · rw [hrun]
    rfl

/-- so there is a run to it; -/
private theorem reached_windowOpen : DeskRun.Reached (fun _ => 1) windowOpen :=
  Reachable.next (.start rfl) step_windowOpen

/-- A message from somebody new is seen. -/
theorem DeskRun.filings_live_iff_first :
    ∃ s, DeskRun.Reached (fun _ => 1) s ∧ ∃ f ∈ s.loop.filings, f.Live := by
  have hfirst : Addressed (textBlock ([97] ++ 32 :: [104]) 4) [97] [104] :=
    ⟨by decide, 32, textBlock [104] 4, by decide, rfl, rfl⟩
  refine ⟨windowOpen, reached_windowOpen, firstFiling, by simp [windowOpen], ?_⟩
  apply (DeskRun.filings_live_iff (fun _ => 1) reached_windowOpen firstFiling
    (by simp [windowOpen])).mpr
  exact Filing.not_closed_of_find?_eq_none hfirst rfl

/-- The client when the window has exited. -/
def windowExited : DeskRun :=
  ⟨⟨⟨greeted true, [5], [⟨5, [97], 4, 5, true, false⟩]⟩, [sockFd], false, [firstFiling]⟩, false⟩

/-- The client when it has been told so. -/
def windowClosed : DeskRun :=
  ⟨⟨⟨greeted false, [5], [⟨5, [97], 4, 5, true, true⟩]⟩, [sockFd], false, [firstFiling]⟩, false⟩

/-- its process exits; -/
theorem step_windowExited : windowOpen.Step (fun _ => 1) (.exits 5) windowExited := rfl

/-- and the signal is handled. -/
theorem step_windowClosed : windowExited.Step (fun _ => 1) (.sigchild [5]) windowClosed := by
  refine ⟨rfl, .refl _, ?_, ?_⟩
  · intro d hd
    obtain rfl := Except.ok.inj hd
    rfl
  · intro f hf
    cases hf

/-- There is a run to it. -/
private theorem reached_windowClosed : DeskRun.Reached (fun _ => 1) windowClosed :=
  Reachable.next (Reachable.next reached_windowOpen step_windowExited) step_windowClosed

/-- A message behind a window that was closed is not seen. -/
theorem DeskRun.not_filings_live :
    ¬∀ slack s, DeskRun.Reached slack s → ∀ f ∈ s.loop.filings, f.Live := by
  intro hall
  obtain ⟨u, hu, -, hrun⟩ :=
    run_iteration_messageFrame (c := greeted false) (w := [97]) (t := [104])
    (not_overread (fun _ => Nat.one_ne_zero) _ _) rfl (by simp [greeted]) (by decide)
      (by decide) (by decide) id
    windowClosed.loop rfl rfl .failed (fun _ => .failed)
  have hstep : windowClosed.Step (fun _ => 1) hello
      ⟨((iteration (fun _ => 1) id [sockFd] (.data (messageFrame [97] [104])) .failed fun _ =>
        .failed).run windowClosed.loop).2, false⟩ := by
    refine ⟨rfl, ?_, ⟨by decide, by decide⟩, trivial, ⟨fun _ _ h => h, by simp [windowClosed]⟩, ?_⟩
    · simp [Loop.watched]
    · rw [hrun]
      rfl
  have hreached := Reachable.next reached_windowClosed hstep
  rw [hrun] at hreached
  obtain ⟨-, -, -, v, -, -, -, ⟨win, hwin, -, -, hopen⟩, -⟩ :=
    hall (fun _ => 1) _ hreached _ (List.mem_append_right _ (List.mem_singleton_self _))
  obtain rfl : win = ⟨5, [97], 4, 5, true, true⟩ := List.mem_singleton.mp hwin
  cases hopen

end ME2U.Client
