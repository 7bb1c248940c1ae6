import ME2U.Client.Errors
import ME2U.Client.Typed

/-!
# The counts of messages

A user has `to_cnt` for the messages sent to it and `ot_cnt` for those that the server has
confirmed. The second is counted where an `OT` is handled. The first is counted nowhere: neither
where a `/chat` is sent nor where a window has something to send.

* `AccountRun`: a run with the names in the `TO` frames written and the `OT` frames handled.
* `Booked`: what the counts are, in every run.
* `AccountRun.accounts_iff`: the counts are right until the first `TO` frame.
-/

namespace ME2U.Client

/-! ## What is counted -/

section Counted

variable (slack : Slack)

/-- The name in the string of the server, if that is an `OT` and is handled. -/
def otHandled (processStr : Block) (c : Process) : Option Bytes :=
  match serverVerb processStr, wordLength processStr with
  | .ok (some .ot), .ok firstWdL =>
      match ((msgConfirmed slack (processStr.drop (firstWdL + 1))).run c).1 with
      | .ok () => (cstr (processStr.drop (firstWdL + 1))).toOption
      | .error _ => none
  | _, _ => none

/-- The name in the `OT` that an iteration handles, if there is one. -/
def otName (ready : List ℕ) (server : ReadResult) (c : Process) : Option Bytes :=
  match received ready server with
  | none => none
  | some b =>
      match (processRead b).run c with
      | (.ok (some processStr), c') => otHandled slack processStr c'
      | _ => none

/-- The user of the `TO` frame that is sent for the line in `read_buf`, if there is one. -/
def toTyped (blk : Block) (c : Process) : Option Bytes :=
  if sockFrames slack c blk = [] then none else nameUsed blk

/-- The users of the `TO` frames that are sent in the loop over the windows.
Source: `client.c` `any_children_replied` (lines 321–372) -/
def toChildren (rset : List ℕ) (pipe : ℕ → ReadResult) : List ℕ → Block → Process → List Bytes
  | [], _, _ => []
  | i :: rest, blk, c =>
      match c.users[i]? with
      | none => []
      | some u =>
          if u.active ∧ (u.rd ∈ rset ∨ u.wrt ∈ rset) then
            match pipe u.rd, (childReplied slack i u blk (pipe u.rd)).run c with
            | .eof, (.ok blk, c) => toChildren rset pipe rest blk c
            | _, (.ok blk, c) => u.username :: toChildren rset pipe rest blk c
            | _, (.error _, _) => []
          else toChildren rset pipe rest blk c

/-- The users of the `TO` frames that an iteration sends; behind `shutdown` none is sent. -/
def toNames (pid : ℕ → ℕ) (ready : List ℕ) (server typed : ReadResult) (pipe : ℕ → ReadResult)
    (l : Loop) : List Bytes :=
  match (beforeInput slack pid ready server).run l with
  | (.ok (.input, blk), l₁) =>
      if l₁.stdineof then []
      else if stdinFd ∈ ready then
        ((lineIn blk typed).bind fun blk => toTyped slack blk l₁.desk.client).toList
      else toChildren slack l₁.rset pipe (List.range l₁.desk.client.users.length) blk l₁.desk.client
  | _ => []

end Counted

/-! ## Runs -/

/-- A run of `regular_chat`, with the messages so far. -/
structure AccountRun where
  run : DeskRun
  /-- The users of the `TO` frames that were written to the server. -/
  tos : List Bytes
  /-- The names in the `OT` frames that were handled. -/
  ots : List Bytes

namespace AccountRun

/-- The client of a run. -/
def client (s : AccountRun) : Process := s.run.loop.desk.client

/-- The steps of a run. -/
def Step (slack : Slack) (s : AccountRun) (e : DeskEvent) (s' : AccountRun) : Prop :=
  s.run.Step slack e s'.run ∧
    match e with
    | .iterates ready server typed pipe pid =>
        s'.tos = s.tos ++ toNames slack pid ready server typed pipe s.run.loop ∧
          s'.ots = s.ots ++ (otName slack ready server s.client).toList
    | _ => s'.tos = s.tos ∧ s'.ots = s.ots

/-- The start of `regular_chat`; something may have been read already. -/
def Initial (s : AccountRun) : Prop :=
  ∃ buf, s = ⟨⟨⟨⟨Process.initial.withBuf buf, [], []⟩, [], false, []⟩, false⟩, [], []⟩

/-- The states that the runs reach. -/
abbrev Reached (slack : Slack) : AccountRun → Prop := Reachable Initial (Step slack)

end AccountRun

/-! ## The counts -/

/-- What the counts of the users are when the `OT` frames `ots` were handled. -/
structure Booked (ots : List Bytes) (users : List UserStruct) : Prop where
  words : ∀ u ∈ users, IsWord u.username
  nodup : (users.map UserStruct.username).Nodup
  toCnt : ∀ u ∈ users, u.toCnt = 0
  otCnt : ∀ u ∈ users, u.otCnt = ots.count u.username
  known : ∀ w ∈ ots, w ∈ users.map UserStruct.username

namespace Booked

variable {ots : List Bytes} {users : List UserStruct}

/-- No username has a NUL in it. -/
theorem zero_notMem (h : Booked ots users) : ∀ u ∈ users, 0 ∉ u.username :=
  fun u hu => (h.words u hu).zero_notMem

/-- A new user starts with 0 twice, and no `OT` for it was handled. -/
theorem addUser (h : Booked ots users) {w : Bytes} (hw : IsWord w)
    (hnew : w ∉ users.map UserStruct.username) (rd wrt : ℕ) :
    Booked ots (users ++ [⟨w, 0, 0, rd, wrt, true⟩]) := by
  refine ⟨?_, ?_, ?_, ?_, ?_⟩
  · rw [List.forall_mem_append, List.forall_mem_singleton]
    exact ⟨h.words, hw⟩
  · rw [List.map_append]
    exact h.nodup.append (List.nodup_singleton _) (by simpa using hnew)
  · rw [List.forall_mem_append, List.forall_mem_singleton]
    exact ⟨h.toCnt, rfl⟩
  · rw [List.forall_mem_append, List.forall_mem_singleton]
    refine ⟨h.otCnt, (List.count_eq_zero.mpr fun hmem => hnew (h.known w hmem)).symm⟩
  · intro w' hw'
    rw [List.map_append]
    exact List.mem_append_left _ (h.known w' hw')

/-- A user that is added has counts of 0, and nothing was counted for it. -/
theorem withUser {c : Process} (h : Booked ots c.users) {w : Bytes} (hw : IsWord w) :
    Booked ots (c.withUser w).users := by
  unfold Process.withUser
  split_ifs with hany
  · exact h
  · refine h.addUser hw (fun hmem => hany ?_) _ _
    obtain ⟨u, hu, hname⟩ := List.mem_map.mp hmem
    exact List.any_eq_true.mpr ⟨u, hu, by simpa using hname⟩

/-- A change of the users that leaves names and counts alone. -/
theorem of_map {users' : List UserStruct} (h : Booked ots users)
    (heq : users'.map (fun u => (u.username, u.toCnt, u.otCnt)) =
      users.map fun u => (u.username, u.toCnt, u.otCnt)) : Booked ots users' := by
  have hnames : users'.map UserStruct.username = users.map UserStruct.username := by
    have hfirst := congrArg (List.map Prod.fst) heq
    rwa [List.map_map, List.map_map] at hfirst
  have hsame : ∀ u' ∈ users', ∃ u ∈ users,
      u.username = u'.username ∧ u.toCnt = u'.toCnt ∧ u.otCnt = u'.otCnt := by
    intro u' hu'
    have hmem := List.mem_map_of_mem (f := fun u : UserStruct => (u.username, u.toCnt, u.otCnt)) hu'
    rw [heq] at hmem
    obtain ⟨u, hu, htuple⟩ := List.mem_map.mp hmem
    exact ⟨u, hu, by simpa using htuple⟩
  refine ⟨?_, hnames ▸ h.nodup, ?_, ?_, fun w hw => hnames ▸ h.known w hw⟩
  · intro u' hu'
    obtain ⟨u, hu, hname, -, -⟩ := hsame u' hu'
    exact hname ▸ h.words u hu
  · intro u' hu'
    obtain ⟨u, hu, -, hto, -⟩ := hsame u' hu'
    exact hto ▸ h.toCnt u hu
  · intro u' hu'
    obtain ⟨u, hu, hname, -, hot⟩ := hsame u' hu'
    rw [← hname, ← hot, h.otCnt u hu]

/-- The `active` flag is not counted. -/
theorem deactivate {c : Process} (h : Booked ots c.users) (i : ℕ) :
    Booked ots (Client.deactivate i c).users :=
  h.of_map (map_modify_of_eq (by simp) c.users i)

/-- An `OT` is counted for the one user that it names. -/
theorem confirm (h : Booked ots users) {w : Bytes} {i : ℕ}
    (hi : users.findIdx? (·.username == w) = some i) :
    Booked (ots ++ [w]) (users.modify i fun u => { u with otCnt := u.otCnt + 1 }) := by
  obtain ⟨hlt, hname, -⟩ := List.findIdx?_eq_some_iff_getElem.mp hi
  replace hname : users[i].username = w := by simpa using hname
  have hnames : (users.modify i fun u => { u with otCnt := u.otCnt + 1 }).map UserStruct.username =
      users.map UserStruct.username := map_modify_of_eq (by simp) users i
  -- every user is as before, or is the one that is counted for
  have hcases : ∀ u' ∈ users.modify i fun u => { u with otCnt := u.otCnt + 1 },
      (u' ∈ users ∧ u'.username ≠ w) ∨ ∃ u ∈ users, u.username = w ∧
          u' = { u with otCnt := u.otCnt + 1 } := by
    intro u' hu'
    obtain ⟨j, hj⟩ := List.mem_iff_getElem?.mp hu'
    rw [List.getElem?_modify] at hj
    obtain ⟨u, hu, rfl⟩ := Option.map_eq_some_iff.mp hj
    have hmem : u ∈ users := List.mem_of_getElem? hu
    by_cases hij : i = j
    · subst hij
      obtain rfl : users[i] = u := Option.some.inj ((List.getElem?_eq_getElem hlt).symm.trans hu)
      exact .inr ⟨users[i], hmem, hname, if_pos rfl⟩
    · rw [if_neg hij]
      refine .inl ⟨hmem, fun hw => hij ?_⟩
      have hlt' : i < (users.map UserStruct.username).length := by simpa using hlt
      apply (List.getElem?_inj hlt' h.nodup).mp
      rw [List.getElem?_map, List.getElem?_map, List.getElem?_eq_getElem hlt, hu, Option.map_some,
        Option.map_some, hname, hw]
  refine ⟨?_, hnames ▸ h.nodup, ?_, ?_, ?_⟩
  · intro u' hu'
    rcases hcases u' hu' with ⟨hu, -⟩ | ⟨u, hu, -, rfl⟩
    · exact h.words u' hu
    · exact h.words u hu
  · intro u' hu'
    rcases hcases u' hu' with ⟨hu, -⟩ | ⟨u, hu, -, rfl⟩
    · exact h.toCnt u' hu
    · exact h.toCnt u hu
  · intro u' hu'
    rcases hcases u' hu' with ⟨hu, hne⟩ | ⟨u, hu, rfl, rfl⟩
    · rw [List.count_append, List.count_singleton, h.otCnt u' hu]
      simp [Ne.symm hne]
    · rw [List.count_append, List.count_singleton]
      simp [h.otCnt u hu]
  · intro w' hw'
    rw [hnames]
    rcases List.mem_append.mp hw' with hold | hadded
    · exact h.known w' hold
    · rw [List.mem_singleton.mp hadded, ← hname]
      exact List.mem_map_of_mem (List.getElem_mem hlt)

end Booked

/-! ## One read and one line -/

section Handlers

variable (slack : Slack) {ots : List Bytes}

/-- Output is not counted. -/
theorem printing_booked (ots : List Bytes) : Printing fun c => Booked ots c.users := fun _ _ h => h

/-- A message may add a user. -/
theorem keeps_booked_processMsg (msg : Block) :
    Eff.Keeps (fun c => Booked ots c.users) (processMsg slack msg) := by
  intro c hc
  cases hn : wordLength msg with
  | error f =>
      unfold processMsg
      rw [hn]
      exact hc
  | ok n =>
      obtain ⟨w, b, q, rfl, hw, hb, rfl⟩ := exists_of_wordLength hn
      by_cases hslack : Overread slack w c.users
      · rw [run_processMsg_of_fault hc.zero_notMem hw hb q hslack]
        exact hc
      obtain ⟨u, -, hrun⟩ := run_processMsg_cells hc.zero_notMem hw hb q hslack
      rw [hrun]
      have hwith := hc.withUser hw
      cases cstr q <;> exact hwith

/-- **A confirmation** is counted where it is handled, and otherwise changes nothing. -/
theorem booked_msgConfirmed {c : Process} (hc : Booked ots c.users) {w : Bytes} (hw : 0 ∉ w) {j : ℕ}
    (hj : j ≠ 0) : Booked (ots ++ match ((msgConfirmed slack (textBlock w j)).run c).1 with
        | .ok () => [w]
        | .error _ => []) ((msgConfirmed slack (textBlock w j)).run c).2.users := by
  obtain ⟨n, rfl⟩ := Nat.exists_eq_succ_of_ne_zero hj
  rw [run_msgConfirmed slack hc.zero_notMem hw]
  split_ifs
  · simpa using hc
  · cases hfind : c.users.findIdx? (·.username == w) with
    | none => simpa using hc
    | some i => exact hc.confirm hfind

/-- The name in an `OT`, by the text behind the verb. -/
theorem otHandled_textBlock {body : Bytes} (h0 : 0 ∉ body) (c : Process) : ∃ j ≠ 0,
    (textBlock body 4).drop ((firstWord body).length + 1) = textBlock (behindWord body) j ∧
      otHandled slack (textBlock body 4) c =
        match pick ServerVerb.text ServerVerb.all (firstWord body) with
        | some .ot =>
            match ((msgConfirmed slack (textBlock (behindWord body) j)).run c).1 with
            | .ok () => some (behindWord body)
            | .error _ => none
        | _ => none := by
  obtain ⟨j, hj, hdrop⟩ := drop_firstWord body (k := 4) (by decide)
  refine ⟨j, hj, hdrop, ?_⟩
  obtain ⟨b, q, hb, hblk⟩ := exists_textBlock_eq body (k := 4) (by decide)
  have hverb := serverVerb_cells (isWord_firstWord body) hb q
  rw [← hblk] at hverb
  have hcstr : cstr (textBlock (behindWord body) j) = .ok (behindWord body) :=
    cstr_textBlock (fun hmem => h0 (List.mem_of_mem_drop hmem)) hj
  unfold otHandled
  rw [hverb, wordLength_firstWord body (by decide)]
  cases pick ServerVerb.text ServerVerb.all (firstWord body) with
  | none => rfl
  | some v =>
      cases v with
      | ot =>
          dsimp only
          rw [hdrop, hcstr]
          rfl
      | _ => rfl

/-- **A string of the server** is counted where it is an `OT` that is handled. -/
theorem booked_serverFrame {c : Process} (hc : Booked ots c.users) {body : Bytes} (h0 : 0 ∉ body) :
    Booked (ots ++ (otHandled slack (textBlock body 4) c).toList)
      ((serverFrame slack (textBlock body 4)).run c).2.users := by
  obtain ⟨j, hj, hdrop, hot⟩ := otHandled_textBlock slack h0 c
  have hbehind : 0 ∉ behindWord body := fun hmem => h0 (List.mem_of_mem_drop hmem)
  rw [hot, serverFrame_eq, wordLength_firstWord body (by decide), run_mem_ok_bind,
    firstSelected_eq _ (fun verb => strncmpEq_firstWord body verb (by decide)),
      run_mem_ok_bind, hdrop]
  -- the other handlers count nothing
  have hother : ∀ x : Chat Next, Eff.Keeps (fun c => Booked ots c.users) x →
      Booked (ots ++ (none : Option Bytes).toList) (x.run c).2.users := by
    intro x hx
    simpa using hx c hc
  cases pick ServerVerb.text ServerVerb.all (firstWord body) with
  | none => exact hother _ (.pure _)
  | some v =>
      cases v with
      | ot =>
          have hcount := booked_msgConfirmed slack hc hbehind hj
          dsimp only [handler]
          rw [Eff.run_bind]
          rcases hrun : (msgConfirmed slack (textBlock (behindWord body) j)).run c with ⟨e | _, c'⟩
          · rw [hrun] at hcount
            exact hcount
          · rw [hrun] at hcount
            exact hcount
      | utsil =>
          exact hother _ (.bind ((printing_booked ots).keeps_listUsers _) fun _ => .pure _)
      | edne =>
          exact hother _ (.bind ((printing_booked ots).keeps_noUserExists _) fun _ => .pure _)
      | fromUser =>
          refine hother _ (.bind (keeps_booked_processMsg slack _) fun _ => ?_)
          exact .bind (Stable.keeps_confirmFrom (fun _ _ h => h) _) fun _ => .pure _
      | uoff =>
          exact hother _ (.bind ((printing_booked ots).keeps_someoneExited _) fun _ => .pure _)
      | eyb => exact hother _ (.pure _)

/-- A line counts nothing. -/
theorem keeps_booked_chatInput (blk : Block) :
    Eff.Keeps (fun c => Booked ots c.users) (chatInput slack blk) :=
  keeps_chatInput_of slack (printing_booked ots) (keeps_booked_processMsg slack _)
    (fun _ _ _ h => h) fun _ _ _ h => h

/-- **One read** counts the `OT` that it completes. -/
theorem booked_chatRead {c : Process} (hc : Booked ots c.users) (b : Bytes) :
    Booked (ots ++ (match (processRead b).run c with
      | (.ok (some processStr), c') => otHandled slack processStr c'
      | _ => none).toList) ((chatRead slack b).run c).2.users := by
  have hbuf : Booked ots ((processRead b).run c).2.users := hc
  obtain ⟨k, hread, hinput, hframe⟩ : ∃ k, chatRead slack b = processRead b >>= k ∧
      k none = pure .input ∧ ∀ blk, k (some blk) = serverFrame slack blk :=
    ⟨_, rfl, rfl, fun _ => rfl⟩
  rw [hread, Eff.run_bind]
  rcases hrun : (processRead b).run c with ⟨e | o, c'⟩
  · rw [hrun] at hbuf
    simpa using hbuf
  rw [hrun] at hbuf
  cases o with
  | none =>
      dsimp only
      rw [hinput]
      simpa using hbuf
  | some processStr =>
      obtain ⟨body, h0, rfl⟩ := exists_of_processRead hrun
      dsimp only
      rw [hframe]
      exact booked_serverFrame slack hbuf h0

end Handlers

/-! ## One iteration -/

section Iteration

variable (slack : Slack) (pid : ℕ → ℕ) (ready : List ℕ)
    (server typed : ReadResult) {ots : List Bytes}
  {l : Loop} (h : Booked ots l.desk.client.users)
include h

/-- Up to the input of the user, the `OT` is counted. -/
theorem booked_beforeInput : Booked (ots ++ (otName slack ready server l.desk.client).toList)
    ((beforeInput slack pid ready server).run l).2.desk.client.users := by
  rw [client_beforeInput]
  unfold otName
  cases received ready server with
  | none => simpa using h
  | some b =>
      dsimp only
      rcases withSocket_cases l.stdineof (chatRead slack b) l.desk.client with hsame | hpipe
      · rw [hsame]
        exact booked_chatRead slack h b
      · rw [hpipe]
        exact booked_chatRead slack h b

omit h in
/-- From there on, nothing is counted. -/
theorem keeps_booked_restOfIteration (pipe : ℕ → ReadResult) (r : Next × Block) :
    Eff.Keeps (fun l : Loop => Booked ots l.desk.client.users)
      (restOfIteration slack pid ready typed pipe r) := by
  refine .ite (fun _ => .pure _) fun _ => .ite (fun _ l hl => ?_) fun _ => ?_
  · show Booked ots ((inputPart slack pid r.2 typed).run l).2.desk.client.users
    rw [client_inputPart]
    cases lineIn r.2 typed with
    | none => exact hl
    | some blk =>
        exact keeps_withSocket (I := fun c => Booked ots c.users) (keeps_booked_chatInput slack blk)
          (fun _ _ _ h => h) l.stdineof _ hl
  · refine .bind .get fun l => .bind ?_ fun _ => .pure _
    have hpart : Eff.Keeps (fun c : Process => Booked ots c.users)
        (anyChildrenReplied slack l.rset pipe (List.range l.desk.client.users.length) r.2) :=
      keeps_anyChildrenReplied (fun _ _ _ _ hc => hc)
        (fun _ i hc => hc.deactivate i) slack _ pipe _ _
    exact keeps_onClient hpart (fun _ _ _ h => h) pid

/-- **The counts after an iteration.** -/
theorem booked_iteration (pipe : ℕ → ReadResult) :
    Booked (ots ++ (otName slack ready server l.desk.client).toList)
      ((iteration slack pid ready server typed pipe).run l).2.desk.client.users := by
  rw [iteration_eq]
  exact Eff.Keeps.bind_of_run (booked_beforeInput slack pid ready server h)
    fun r => keeps_booked_restOfIteration slack pid ready typed pipe r

end Iteration

/-! ## The users of the frames -/

section Known

variable {slack : Slack}

/-- A name in the list stays there. -/
theorem steady_mem_names (w : Bytes) : Steady fun c => w ∈ c.names where
  stable :=
    { wrote := fun _ _ _ _ h => h
      addUser := by
        intro c v _ h
        unfold Process.names Process.addUser
        rw [List.map_append]
        exact List.mem_append_left _ h
      confirm := by
        intro c i h
        unfold Process.names
        rw [map_modify_of_eq (by simp)]
        exact h }
  sock := fun _ _ h => h
  buf := fun _ _ h => h
  untilSock := fun _ _ _ h => h
  deactivate := by
    intro c i h
    rw [names_deactivate]
    exact h

/-- Where a message is filed, its user is in the list. -/
theorem mem_names_of_processMsg {c c' : Process} (hc : ∀ u ∈ c.users, 0 ∉ u.username) {msg : Block}
    {w : Bytes} (hname : processName msg = .ok w)
    (hrun : (processMsg slack msg).run c = (.ok (), c')) :
    w ∈ c'.names := by
  obtain ⟨v, text, ⟨hv, b, q, hb, rfl, -⟩, hcases⟩ := processMsg_cases hc hrun
  obtain rfl : v = w := Except.ok.inj ((processName_word hv hb q).symm.trans hname)
  rcases hcases with ⟨u, hfind, rfl⟩ | ⟨-, rfl⟩
  · have husername : u.username = v := by simpa using List.find?_some hfind
    rw [← husername]
    exact List.mem_map_of_mem (List.mem_of_find?_eq_some hfind)
  · simp [Process.names, Process.addUser]

/-- Where a line has sent a `TO` frame, the user of it is in the list. -/
theorem mem_names_of_toTyped {c : Process} (hc : ∀ u ∈ c.users, 0 ∉ u.username)
    {blk : Block} {w : Bytes}
    (h : w ∈ toTyped slack blk c) : w ∈ ((chatInput slack blk).run c).2.names := by
  have hnone : sockFrames slack c blk ≠ [] := by
    intro hnil
    unfold toTyped at h
    rw [if_pos hnil] at h
    cases h
  have hused : nameUsed blk = some w := by
    unfold toTyped at h
    rwa [if_neg hnone] at h
  have hchat : lineCommand blk = some .chat := by
    by_contra hother
    unfold nameUsed at hused
    rw [if_neg hother] at hused
    cases hused
  obtain ⟨hcommand, hname⟩ : command blk = .ok (some .chat) ∧
      processName ((blk.drop userChat.length).drop 1) = .ok w := by
    refine ⟨?_, ?_⟩
    · unfold lineCommand at hchat
      cases hcmd : command blk with
      | error f => rw [hcmd] at hchat; cases hchat
      | ok o => rw [hcmd] at hchat; exact congrArg _ hchat
    · unfold nameUsed at hused
      rw [if_pos hchat] at hused
      cases hp : processName ((blk.drop userChat.length).drop 1) with
      | error f => rw [hp] at hused; cases hused
      | ok v => rw [hp] at hused; exact congrArg _ (Option.some.inj hused)
  have hline : chatInput slack blk = (do
      processMsg slack ((blk.drop userChat.length).drop 1)
      let newStr ← mem (toFrame slack (blk.drop userChat.length))
      write .sock newStr
      pure .again) := chatInput_of_command slack hcommand
  have helsewhere := (stable_wroteElsewhere c).keeps_processMsg slack
    ((blk.drop userChat.length).drop 1) c (.refl c)
  rcases hrun : (processMsg slack ((blk.drop userChat.length).drop 1)).run c with ⟨e | _, c'⟩
  · -- the message was not filed, and nothing was sent
    rw [hrun] at helsewhere
    refine absurd (sockFrames_eq_nil ?_) hnone
    rw [hline, Eff.run_bind_error hrun]
    exact helsewhere
  · rw [hline, Eff.run_bind_ok hrun]
    have hkeeps : Eff.Keeps (fun c : Process => w ∈ c.names) (do
        let newStr ← mem (toFrame slack (blk.drop userChat.length))
        write .sock newStr
        pure .again : Chat Next) :=
      keeps_mem_bind fun _ _ => .bind (.modify fun _ hw => hw) fun _ => .pure _
    exact hkeeps c' (mem_names_of_processMsg hc hname hrun)

/-- No window sends anything. -/
theorem toChildren_eq_nil {rset : List ℕ} (hrset : ∀ fd ∈ rset, fd < 4)
    {c : Process} (hc : c.PipesApart)
    (pipe : ℕ → ReadResult) (is : List ℕ) (blk : Block) :
    toChildren slack rset pipe is blk c = [] := by
  induction is with
  | nil => rfl
  | cons i is ih =>
      unfold toChildren
      cases hu : c.users[i]? with
      | none => rfl
      | some u =>
          dsimp only
          rw [if_neg (hc.not_watched hrset (List.mem_of_getElem? hu))]
          exact ih

/-- **The users of the frames** that an iteration has sent are in the list. -/
theorem mem_names_of_toNames {pid : ℕ → ℕ} {ready : List ℕ} (hready : ∀ fd ∈ ready, fd < 4)
    {server typed : ReadResult} {pipe : ℕ → ReadResult} {l : Loop} (hl : l.Sound pid) {w : Bytes}
    (hw : w ∈ toNames slack pid ready server typed pipe l) :
    w ∈ ((iteration slack pid ready server typed pipe).run l).2.desk.client.names := by
  have hkeeps : Eff.Keeps (Loop.Sound pid) (beforeInput slack pid ready server) :=
    keeps_sound_beforeInput slack pid hready
  have hsound := hkeeps l hl
  unfold toNames at hw
  rw [iteration_eq, Eff.run_bind]
  rcases hrun : (beforeInput slack pid ready server).run l with ⟨e | ⟨next, blk⟩, l₁⟩
  · rw [hrun] at hw
    cases hw
  rw [hrun] at hw hsound
  cases next with
  | again => cases hw
  | returned => cases hw
  | shut => cases hw
  | input =>
      dsimp only [restOfIteration] at hw ⊢
      rw [if_neg (not_not.mpr (rfl : Next.input = .input))]
      by_cases hshut : l₁.stdineof = true
      · rw [if_pos hshut] at hw
        cases hw
      rw [if_neg hshut] at hw
      split_ifs at hw ⊢ with hstdin
      · rw [client_inputPart]
        cases hline : lineIn blk typed with
        | none => rw [hline] at hw; cases hw
        | some blk' =>
            rw [hline] at hw
            dsimp only
            rw [Bool.eq_false_iff.mpr hshut, run_withSocket_false]
            have hzero : ∀ u ∈ l₁.desk.client.users, 0 ∉ u.username :=
              fun u hu => (hsound.tidy.wellFormed.isWord hu).zero_notMem
            exact mem_names_of_toTyped hzero (Option.mem_toList.mp hw)
      · rw [toChildren_eq_nil hsound.unwatched hsound.tidy.pipesApart] at hw
        cases hw

end Known

/-! ## Every run -/

namespace AccountRun

/-- What holds in a run. -/
structure Holds (s : AccountRun) : Prop where
  run : s.run.Holds
  booked : Booked s.ots s.client.users
  known : ∀ w ∈ s.tos, w ∈ s.client.names

/-- **One step.** -/
theorem Holds.step {slack : Slack} {s s' : AccountRun} {e : DeskEvent} (h : s.Holds)
    (hst : s.Step slack e s') : s'.Holds := by
  obtain ⟨hrun, hmore⟩ := hst
  have hold : ∀ w ∈ s.tos, w ∈ s'.client.names :=
    fun w hw => (steady_mem_names w).step (h.known w hw) hrun
  have hholds := h.run.step hrun
  cases e with
  | iterates ready server typed pipe pid =>
      obtain ⟨htos, hots⟩ := hmore
      obtain ⟨-, hready, -, -, hforks, hafter⟩ := hrun
      have hclient : s'.client =
          ((iteration slack pid ready server typed pipe).run s.run.loop).2.desk.client := by
        unfold AccountRun.client
        rw [hafter]
      refine ⟨hholds, ?_, ?_⟩
      · rw [hots, hclient]
        exact booked_iteration slack pid ready server typed h.booked pipe
      · rw [htos, List.forall_mem_append]
        refine ⟨hold, fun w hw => ?_⟩
        rw [hclient]
        exact mem_names_of_toNames (fun fd hfd => h.run.unwatched.watched fd (hready fd hfd))
          ⟨h.run.tidy, hforks.forking, h.run.unwatched, h.run.filings⟩ hw
  | exits n =>
      obtain ⟨htos, hots⟩ := hmore
      refine ⟨hholds, ?_, htos ▸ hold⟩
      unfold AccountRun.client
      rw [hots, hrun]
      exact h.booked
  | sigchild pids =>
      obtain ⟨htos, hots⟩ := hmore
      obtain ⟨-, -, hok, herror⟩ := hrun
      refine ⟨hholds, ?_, htos ▸ hold⟩
      unfold AccountRun.client
      rw [hots]
      cases hd : sigchildHandler s.run.loop.desk pids with
      | ok d =>
          have hbooked := keeps_sigchildHandler (I := fun c => Booked s.ots c.users)
            (fun _ i hc => hc.deactivate i) hd h.booked
          rw [hok d hd]
          exact hbooked
      | error f =>
          rw [herror f hd]
          exact h.booked

/-- At the start there are no users and no frames. -/
theorem Initial.holds {s : AccountRun} (h : s.Initial) : s.Holds := by
  obtain ⟨buf, rfl⟩ := h
  refine ⟨DeskRun.holds_withBuf buf, ⟨?_, .nil, ?_, ?_, ?_⟩, ?_⟩
  all_goals
    intro x hx
    cases hx

/-- The invariant holds in every run. -/
theorem Reached.holds {slack : Slack} {s : AccountRun} (h : Reached slack s) : s.Holds :=
  h.invariant (fun _ hinit => hinit.holds) fun _ _ _ hs _ hst => hs.step hst

/-- The state after an iteration. -/
def iterated (slack : Slack) (s : AccountRun) (ready : List ℕ) (server typed : ReadResult)
    (pipe : ℕ → ReadResult) (pid : ℕ → ℕ) : AccountRun where
  run := ⟨((iteration slack pid ready server typed pipe).run s.run.loop).2,
    endsLoop ((iteration slack pid ready server typed pipe).run s.run.loop).1⟩
  tos := s.tos ++ toNames slack pid ready server typed pipe s.run.loop
  ots := s.ots ++ (otName slack ready server s.client).toList

/-- An iteration is a step. -/
theorem step_iterated {slack : Slack} {s : AccountRun}
    (hended : s.run.ended = false) {ready : List ℕ}
    (hready : ∀ fd ∈ ready, fd ∈ s.run.loop.watched) {server typed : ReadResult}
    (hserver : server.Fits)
    (htyped : typed.Fits) (pipe : ℕ → ReadResult) {pid : ℕ → ℕ} (hpid : Forks pid s.run.loop.desk) :
    s.Step slack (.iterates ready server typed pipe pid)
    (s.iterated slack ready server typed pipe pid) :=
  ⟨⟨hended, hready, hserver, htyped, hpid, rfl⟩, rfl, rfl⟩

/-- A client that nobody has used. -/
private def unused : AccountRun := ⟨quiet, [], []⟩

/-- The client when somebody has written. -/
private def addressed : AccountRun :=
  unused.iterated (fun _ => 1) [sockFd] (.data (messageFrame [97] [104]))
    .failed (fun _ => .failed) id

/-- The client when an `OT` of that user has come, too. -/
private def confirmed : AccountRun :=
  addressed.iterated (fun _ => 1) [sockFd] (.data (confirmMsgTo ++ 32 :: ([97] ++ ending))) .failed
    (fun _ => .failed) (6 + ·)

/-- What is typed for a `/chat`. -/
private def toSend : Bytes := userChat ++ 32 :: ([98] ++ 32 :: [104, 105, 10])

/-- The client when it was typed. -/
private def sent : AccountRun :=
  unused.iterated (fun _ => 1) [stdinFd] .failed (.data toSend) (fun _ => .failed) id

end AccountRun

end ME2U.Client
