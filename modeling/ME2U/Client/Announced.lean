import ME2U.Client.LiveWindows
import ME2U.Client.Reply

/-!
# Users that nobody has announced

A window should be opened for a user that the server has named: with an `OT`, when a message of the
client reached the user, or with a `FROM`. The client files a `/chat` before it is sent, and adds
the user to its list there and then; and it takes for a `FROM` whatever begins with a beginning of
that word.

* `names_processMsg`: `process_msg` adds the first word to the usernames, or nothing.
* `names_chatRead`, `names_chatInput`: the names after what was read, and after a line.
* `PeerRun.noWindowWithoutPeer`: in a run without these two, no window is without a peer.
-/

namespace ME2U.Client

/-! ## The usernames -/

/-- The usernames, in the order of the list. -/
def Process.names (c : Process) : List Bytes := c.users.map UserStruct.username

/-- What leaves the users alone leaves their names alone. -/
theorem quiet_names (n : List Bytes) : Quiet fun c => c.names = n where
  wrote := fun _ _ _ _ h => h
  confirm := by
    intro c i h
    unfold Process.names
    rw [map_modify_of_eq (by simp)]
    exact h

/-- A closed window keeps its name. -/
theorem names_deactivate (i : ℕ) (c : Process) : (deactivate i c).names = c.names := by
  unfold deactivate Process.names
  rw [map_modify_of_eq (by simp)]

/-- The name that a message is filed under. -/
def FiledUnder (msg : Block) (w : Bytes) : Prop :=
  IsWord w ∧ ∃ c q, IsSep c ∧ msg = cells w ++ some c :: q

/-- A message is filed under one name. -/
theorem FiledUnder.unique {msg : Block} {w w' : Bytes} (h : FiledUnder msg w)
    (h' : FiledUnder msg w') : w = w' := by
  obtain ⟨hw, c, q, hc, rfl⟩ := h
  obtain ⟨hw', c', q', hc', heq⟩ := h'
  exact (eq_of_cells_append_sep hw hw' hc hc' heq).1

/-- The names after a handler: those before, and the name of the message filed, if that is new. -/
def Process.NamesAfter (c : Process) (call : Option Block) (c' : Process) : Prop :=
  c'.names = c.names ∨
    ∃ msg ∈ call, ∃ w, FiledUnder msg w ∧ w ∉ c.names ∧ c'.names = c.names ++ [w]

/-- **What `process_msg` adds** to the names, however it ends. -/
theorem names_processMsg {c : Process} (hc : ∀ u ∈ c.users, 0 ∉ u.username)
    (slack : Slack) (msg : Block) :
    c.NamesAfter (some msg) ((processMsg slack msg).run c).2 := by
  cases hn : wordLength msg with
  | error f =>
      unfold processMsg
      rw [hn]
      exact .inl rfl
  | ok n =>
      obtain ⟨w, b, q, rfl, hw, hb, rfl⟩ := exists_of_wordLength hn
      by_cases hslack : Overread slack w c.users
      · rw [run_processMsg_of_fault hc hw hb q hslack]
        exact .inl rfl
      obtain ⟨u, -, hrun⟩ := run_processMsg_cells hc hw hb q hslack
      have hnames : ((processMsg slack (cells w ++ some b :: q)).run c).2.names =
          (c.withUser w).names := by
        rw [hrun]
        cases cstr q <;> rfl
      unfold Process.NamesAfter
      rw [hnames]
      cases hfind : c.users.find? (·.username == w) with
      | some v =>
          rw [Process.withUser_of_find?_eq_some hfind]
          exact .inl rfl
      | none =>
          rw [Process.withUser_of_find?_eq_none hfind]
          refine .inr ⟨_, rfl, w, ⟨hw, b, q, hb, rfl⟩, ?_, ?_⟩
          · intro hmem
            obtain ⟨v, hv, hname⟩ := List.mem_map.mp hmem
            exact absurd hname (by simpa using (List.find?_eq_none.mp hfind) v hv)
          · simp [Process.names, Process.addUser]

/-- An end by `SIGPIPE` makes no difference to the names. -/
theorem Process.NamesAfter.withSocket {α : Type} {m : Chat α} {c : Process} {call : Option Block}
    (h : c.NamesAfter call (m.run c).2) (shut : Bool) :
    c.NamesAfter call ((withSocket shut m).run c).2 := by
  rcases withSocket_cases shut m c with hsame | hpipe
  · rwa [hsame]
  · rw [hpipe]
    exact h

/-! ## One read and one line -/

section Handlers

variable {I : Process → Prop} (hI : Quiet I)
include hI

/-- The handlers but that of `FROM`. -/
theorem Quiet.keeps_handler (slack : Slack) (rest : Block) {v : ServerVerb} (hv : v ≠ .fromUser) :
    Eff.Keeps I (handler slack rest v) := by
  cases v with
  | utsil => exact .bind (hI.printing.keeps_listUsers _) fun _ => .pure _
  | ot => exact .bind (hI.keeps_msgConfirmed slack _) fun _ => .pure _
  | edne => exact .bind (hI.printing.keeps_noUserExists _) fun _ => .pure _
  | fromUser => exact absurd rfl hv
  | uoff => exact .bind (hI.printing.keeps_someoneExited _) fun _ => .pure _
  | eyb => exact .pure _

/-- A string of the server for which `process_msg` is not called. -/
theorem Quiet.keeps_serverFrame (slack : Slack) {blk : Block}
    (hno : ∀ msg, fromMsg blk ≠ .ok (some msg)) :
    Eff.Keeps I (serverFrame slack blk) := by
  rw [serverFrame_eq]
  refine keeps_mem_bind fun n hn => keeps_mem_bind fun v hv => ?_
  cases v with
  | none => exact .pure _
  | some v =>
      refine hI.keeps_handler slack _ ?_
      rintro rfl
      exact hno _ (fromMsg_eq_some_iff.mpr ⟨n, hn, hv, rfl⟩)

/-- A line for which `process_msg` is not called. -/
theorem Quiet.keeps_chatInput (slack : Slack) {blk : Block}
    (hreq : ∀ str ∈ bareRequest blk, ∀ c,
      I c → I { c with wrote := c.wrote ++ [(.sock, str ++ ending)] })
    (hno : ∀ msg, chatMsg blk ≠ .ok (some msg)) : Eff.Keeps I (chatInput slack blk) := by
  refine keeps_chatInput_of_command slack fun k hk => ?_
  refine hI.printing.keeps_runCommand slack ?_ fun str hstr => hreq str (mem_bareRequest hk hstr)
  rintro rfl
  exact hno _ (chatMsg_eq_some_iff.mpr ⟨hk, rfl⟩)

end Handlers

/-- **The names after what was read** from the server. -/
theorem names_chatRead {c : Process} (hc : ∀ u ∈ c.users, 0 ∉ u.username)
    (slack : Slack) (b : Bytes) :
    c.NamesAfter ((readCall b c).map Prod.fst) ((chatRead slack b).run c).2 := by
  cases hcall : readCall b c with
  | some x =>
      obtain ⟨msg, c₁⟩ := x
      obtain ⟨s, -, rfl, -⟩ := exists_of_readCall hcall
      rw [run_chatRead_of_readCall hcall slack]
      apply Eff.Keeps.bind_of_run (names_processMsg (c := c.withBuf s) hc slack msg)
      exact fun _ => .bind (Stable.keeps_confirmFrom (fun _ _ h => h) msg) fun _ => .pure _
  | none =>
      have hbuf : ((processRead b).run c).2.names = c.names := rfl
      obtain ⟨k, hread, hinput, hframe⟩ : ∃ k, chatRead slack b = processRead b >>= k ∧
          k none = pure .input ∧ ∀ blk, k (some blk) = serverFrame slack blk :=
        ⟨_, rfl, rfl, fun _ => rfl⟩
      refine .inl ?_
      rw [hread, Eff.run_bind]
      rcases hrun : (processRead b).run c with ⟨e | o, c'⟩
      · rw [← hbuf, hrun]
      rw [hrun] at hbuf
      cases o with
      | none =>
          dsimp only
          rw [hinput]
          exact hbuf
      | some blk =>
          dsimp only
          rw [hframe]
          refine (quiet_names c.names).keeps_serverFrame slack (fun msg hmsg => ?_) c' hbuf
          unfold readCall at hcall
          rw [hrun] at hcall
          simp only [hmsg] at hcall
          cases hcall

/-- **The names after a line.** -/
theorem names_chatInput {c : Process} (hc : ∀ u ∈ c.users, 0 ∉ u.username)
    (slack : Slack) (blk : Block) :
    c.NamesAfter ((inputCall blk c).map Prod.fst) ((chatInput slack blk).run c).2 := by
  cases hcall : inputCall blk c with
  | some x =>
      obtain ⟨msg, c₁⟩ := x
      obtain ⟨rfl, hrun⟩ := run_chatInput_of_inputCall hcall slack
      rw [hrun]
      apply Eff.Keeps.bind_of_run (names_processMsg hc slack msg)
      exact fun _ => keeps_mem_bind fun _ _ => .bind (.modify fun _ h => h) fun _ => .pure _
  | none =>
      refine .inl ((quiet_names c.names).keeps_chatInput slack (fun _ _ _ h => h) ?_ c rfl)
      intro msg hmsg
      unfold inputCall at hcall
      rw [hmsg] at hcall
      cases hcall

/-! ## One iteration -/

section Iteration

variable (slack : Slack) (pid : ℕ → ℕ)

/-- A string of the server is a text with four bytes behind it. -/
theorem exists_of_processRead {b : Bytes} {c c' : Process} {processStr : Block}
    (h : (processRead b).run c = (.ok (some processStr), c')) :
    ∃ body, 0 ∉ body ∧ processStr = textBlock body 4 := by
  unfold processRead at h
  rw [Eff.run_zoom] at h
  have hout := congrArg Prod.fst h
  rcases hstr : (processString (readBuf b)).run c.buf with ⟨e | o, s⟩
  · rw [hstr] at hout
    cases hout
  · rw [hstr] at hout
    obtain rfl := Except.ok.inj hout
    exact exists_of_processString hstr

/-- What is read from the server in an iteration; after an error `read_buf` is as it was cleared. -/
def received (ready : List ℕ) : ReadResult → Option Bytes
  | .data b => if sockFd ∈ ready then some b else none
  | .failed => if sockFd ∈ ready then some [] else none
  | .eof => none

/-- The strings that `process_string` returns in an iteration. -/
def heardIn (ready : List ℕ) (server : ReadResult) (c : Process) : List Bytes :=
  match received ready server with
  | none => []
  | some b =>
      match (processRead b).run c with
      | (.ok (some processStr), _) => (cstr processStr).toOption.toList
      | _ => []

/-- An iteration up to the input of the user. -/
def beforeInput (ready : List ℕ) (server : ReadResult) : LoopM (Next × Block) := do
  Eff.modify fun l => { l with rset := ready }
  if sockFd ∈ ready then serverPart slack pid server else pure (.input, readBuf [])

/-- An iteration is its part before the input, and the rest. -/
theorem iteration_eq (ready : List ℕ) (server typed : ReadResult) (pipe : ℕ → ReadResult) :
    iteration slack pid ready server typed pipe =
      (beforeInput slack pid ready server >>= restOfIteration slack pid ready typed pipe) := by
  unfold iteration beforeInput
  rw [Eff.bind_assoc]
  split <;> rfl

/-- `read_buf` with the line that is read into it. -/
def lineIn (blk : Block) : ReadResult → Option Block
  | .eof => none
  | .failed => some blk
  | .data line => (store blk 0 (cells line)).toOption

/-- What `process_msg` is called with for the line of an iteration, if it is. -/
def chatCall (ready : List ℕ) (server typed : ReadResult) (l : Loop) : Option Block :=
  match (beforeInput slack pid ready server).run l with
  | (.ok (.input, blk), l₁) =>
      if stdinFd ∈ ready then
        (lineIn blk typed).bind fun blk => (inputCall blk l₁.desk.client).map Prod.fst
      else none
  | _ => none

variable (l : Loop)

/-- Putting a call on record leaves the desk alone. -/
theorem run_record (call : Option (Block × Process)) :
    ∃ l', (record slack pid call).run l = (.ok (), l') ∧
    l'.desk = l.desk ∧ l'.stdineof = l.stdineof := by
  cases call with
  | none => exact ⟨l, rfl, rfl, rfl⟩
  | some x =>
      refine ⟨_, rfl, ?_⟩
      dsimp only
      split <;> exact ⟨rfl, rfl⟩

/-- What a string of the server does to the client. -/
theorem run_serverString (b : Bytes) : ∃ l', (serverString slack pid b).run l =
    (((withSocket l.stdineof (chatRead slack b)).run l.desk.client).1.map fun next =>
      (next, readBuf b), l') ∧
      l'.desk.client = ((withSocket l.stdineof (chatRead slack b)).run l.desk.client).2 := by
  obtain ⟨l', hrecord, hdesk, hshut⟩ := run_record slack pid l (readCall b l.desk.client)
  unfold serverString
  rw [Eff.run_get_bind, Eff.run_bind_ok hrecord, Eff.run_bind, run_onClient, hdesk, hshut]
  rcases (withSocket l.stdineof (chatRead slack b)).run l.desk.client with ⟨e | next, c'⟩
  · exact ⟨_, rfl, rfl⟩
  · exact ⟨_, rfl, rfl⟩

/-- After a call of `process_msg` for what was read, the input is not looked at. -/
theorem chatRead_ne_input (shut : Bool) {b : Bytes} {c c₁ : Process} {msg : Block}
    (h : readCall b c = some (msg, c₁)) :
    ((withSocket shut (chatRead slack b)).run c).1 ≠ .ok .input := by
  intro hinput
  have hread := run_of_withSocket_ok (Prod.ext hinput rfl)
  rw [run_chatRead_of_readCall h] at hread
  have hrun : ((processMsg slack msg >>= fun _ => confirmFrom msg >>= fun _ =>
      (pure .again : Chat Next)).run c₁) = (.ok .input, _) := hread
  obtain ⟨_, _, -, hrun⟩ := Eff.run_bind_eq_ok_iff.mp hrun
  obtain ⟨_, _, -, hrun⟩ := Eff.run_bind_eq_ok_iff.mp hrun
  cases hrun

variable {l} {ready : List ℕ} {server typed : ReadResult}

/-- Where something is read, it is handled. -/
theorem run_beforeInput_of_received {b : Bytes} (h : received ready server = some b) :
    (beforeInput slack pid ready server).run l =
      (serverString slack pid b).run { l with rset := ready } := by
  unfold beforeInput
  rw [Eff.run_modify_bind]
  cases server with
  | eof => cases h
  | failed =>
      obtain ⟨hsock, rfl⟩ : sockFd ∈ ready ∧ [] = b := by simpa [received] using h
      rw [if_pos hsock]
      rfl
  | data b' =>
      obtain ⟨hsock, rfl⟩ : sockFd ∈ ready ∧ b' = b := by simpa [received] using h
      rw [if_pos hsock]
      rfl

/-- Where nothing is read, the client stays as it is. -/
theorem client_beforeInput_of_not_received (h : received ready server = none) :
    ((beforeInput slack pid ready server).run l).2.desk.client = l.desk.client := by
  unfold beforeInput
  rw [Eff.run_modify_bind]
  split_ifs with hsock
  · cases server with
    | data b => simp [received, hsock] at h
    | failed => simp [received, hsock] at h
    | eof =>
        unfold serverPart
        rw [Eff.run_get_bind]
        split <;> rfl
  · rfl

/-- Up to the input of the user, what is done to the client is what the read does, if there is
one. -/
theorem client_beforeInput : ((beforeInput slack pid ready server).run l).2.desk.client =
    match received ready server with
    | none => l.desk.client
    | some b => ((withSocket l.stdineof (chatRead slack b)).run l.desk.client).2 := by
  cases hb : received ready server with
  | none => exact client_beforeInput_of_not_received slack pid hb
  | some b =>
      obtain ⟨l', hrun, hclient⟩ := run_serverString slack pid { l with rset := ready } b
      rw [run_beforeInput_of_received slack pid hb, hrun]
      exact hclient

/-- Up to the input of the user, what is sound stays so. -/
theorem keeps_sound_beforeInput (hready : ∀ fd ∈ ready, fd < 4) :
    Eff.Keeps (Loop.Sound pid) (beforeInput slack pid ready server) := by
  refine .bind (.modify fun l hl => ⟨hl.tidy, hl.forking, hready, hl.filings⟩) fun _ => ?_
  exact .ite (fun _ => keeps_sound_serverPart slack server) fun _ => .pure _

/-- Where a message was read, the iteration does not get to the input. -/
theorem beforeInput_ne_input {b : Bytes} {msg : Block} {c₁ : Process}
    (hb : received ready server = some b) (hcall : readCall b l.desk.client = some (msg, c₁))
    (blk : Block) : ((beforeInput slack pid ready server).run l).1 ≠ .ok (.input, blk) := by
  obtain ⟨l', hrun, -⟩ := run_serverString slack pid { l with rset := ready } b
  rw [run_beforeInput_of_received slack pid hb, hrun]
  intro hinput
  apply chatRead_ne_input slack l.stdineof hcall
  cases hout : ((withSocket l.stdineof (chatRead slack b)).run l.desk.client).1 with
  | error e => rw [hout] at hinput; cases hinput
  | ok next => rw [hout] at hinput; cases hinput; rfl

/-- After a call of `process_msg` for what was read, there is none for a line. -/
theorem chatCall_of_readCall {b : Bytes} {c₁ : Process} {msg : Block}
    (hb : received ready server = some b) (hcall : readCall b l.desk.client = some (msg, c₁)) :
    chatCall slack pid ready server typed l = none := by
  unfold chatCall
  split
  · next blk l₁ hrun =>
      exact absurd (congrArg Prod.fst hrun) (beforeInput_ne_input slack pid hb hcall blk)
  · rfl

variable (ready server typed) (hc : ∀ u ∈ l.desk.client.users, 0 ∉ u.username)
include hc

/-- **The names up to the input of the user**; where that is looked at, they are as before. -/
theorem names_beforeInput :
    l.desk.client.NamesAfter ((received ready server).bind fun b =>
      (readCall b l.desk.client).map Prod.fst)
        ((beforeInput slack pid ready server).run l).2.desk.client ∧
    ∀ blk, ((beforeInput slack pid ready server).run l).1 = .ok (.input, blk) →
      ((beforeInput slack pid ready server).run l).2.desk.client.names = l.desk.client.names := by
  rw [client_beforeInput]
  cases hb : received ready server with
  | some b =>
      have hnames : l.desk.client.NamesAfter ((readCall b l.desk.client).map Prod.fst)
          ((withSocket l.stdineof (chatRead slack b)).run l.desk.client).2 :=
        (names_chatRead hc slack b).withSocket l.stdineof
      refine ⟨hnames, fun blk hinput => ?_⟩
      rcases hnames with hsame | ⟨msg, hmsg, -⟩
      · exact hsame
      · obtain ⟨⟨msg', c₁⟩, hcall, -⟩ := Option.map_eq_some_iff.mp hmsg
        exact absurd hinput (beforeInput_ne_input slack pid hb hcall blk)
  | none => exact ⟨.inl rfl, fun _ _ => rfl⟩

omit hc in
/-- What a line does to the client. -/
theorem run_inputLine_client (blk : Block) : ((inputLine slack pid blk).run l).2.desk.client =
    ((withSocket l.stdineof (chatInput slack blk)).run l.desk.client).2 := by
  obtain ⟨l', hrecord, hdesk, hshut⟩ := run_record slack pid l (inputCall blk l.desk.client)
  unfold inputLine
  rw [Eff.run_get_bind, Eff.run_bind_ok hrecord, Eff.run_bind, run_onClient, hdesk, hshut]
  rcases (withSocket l.stdineof (chatInput slack blk)).run l.desk.client with ⟨e | next, c'⟩
  · rfl
  · dsimp only
    split <;> rfl

omit hc in
/-- A line that was read is laid over `read_buf` and handled. -/
theorem inputPart_data (blk : Block) (line : Bytes) : inputPart slack pid blk (.data line) =
    (mem (store blk 0 (cells line)) >>= inputLine slack pid) := rfl

omit hc in
/-- What the input of the user does to the client is what the line does, if there is one. -/
theorem client_inputPart (blk : Block) : ((inputPart slack pid blk typed).run l).2.desk.client =
    match lineIn blk typed with
    | none => l.desk.client
    | some blk => ((withSocket l.stdineof (chatInput slack blk)).run l.desk.client).2 := by
  cases typed with
  | eof => rfl
  | failed => exact run_inputLine_client slack pid blk
  | data line =>
      have hlineIn : lineIn blk (.data line) = (store blk 0 (cells line)).toOption := rfl
      rw [inputPart_data, hlineIn]
      cases store blk 0 (cells line) with
      | error f => rfl
      | ok blk' =>
          rw [run_mem_ok_bind]
          exact run_inputLine_client slack pid blk'

/-- **The names after the input of the user.** -/
theorem names_inputPart (blk : Block) :
    l.desk.client.NamesAfter ((lineIn blk typed).bind fun blk =>
      (inputCall blk l.desk.client).map Prod.fst)
        ((inputPart slack pid blk typed).run l).2.desk.client := by
  rw [client_inputPart]
  cases lineIn blk typed with
  | none => exact .inl rfl
  | some blk' => exact (names_chatInput hc slack blk').withSocket l.stdineof

/-- **The names after an iteration**: a line may add one, or else the string of the server may. -/
theorem names_iteration (pipe : ℕ → ReadResult) :
    (chatCall slack pid ready server typed l = none ∧
      l.desk.client.NamesAfter ((received ready server).bind fun b =>
        (readCall b l.desk.client).map Prod.fst)
          ((iteration slack pid ready server typed pipe).run l).2.desk.client) ∨
    l.desk.client.NamesAfter (chatCall slack pid ready server typed l)
      ((iteration slack pid ready server typed pipe).run l).2.desk.client := by
  obtain ⟨hbefore, hsame⟩ := names_beforeInput slack pid ready server hc
  rw [iteration_eq, Eff.run_bind]
  unfold chatCall
  rcases hrun : (beforeInput slack pid ready server).run l with ⟨e | ⟨next, blk⟩, l₁⟩
  · rw [hrun] at hbefore
    exact .inl ⟨rfl, hbefore⟩
  rw [hrun] at hbefore hsame
  dsimp only [restOfIteration] at hbefore hsame ⊢
  by_cases hnext : next = .input
  · subst hnext
    replace hsame : l₁.desk.client.names = l.desk.client.names := hsame blk rfl
    have hc₁ : ∀ u ∈ l₁.desk.client.users, 0 ∉ u.username := by
      intro u hu
      have hmem : u.username ∈ l.desk.client.names := hsame ▸ List.mem_map_of_mem hu
      obtain ⟨v, hv, hname⟩ := List.mem_map.mp hmem
      exact hname ▸ hc v hv
    refine .inr ?_
    dsimp only
    rw [if_neg (not_not.mpr (rfl : Next.input = .input))]
    by_cases hstdin : stdinFd ∈ ready
    · rw [if_pos hstdin, if_pos hstdin]
      have hinput := names_inputPart slack pid typed hc₁ blk
      unfold Process.NamesAfter at hinput ⊢
      rwa [← hsame]
    · rw [if_neg hstdin, if_neg hstdin]
      refine .inl ?_
      rw [← hsame]
      have hkeeps : Eff.Keeps (fun l : Loop => l.desk.client.names = l₁.desk.client.names) (do
          let l ← Eff.get
          onClient pid
            (anyChildrenReplied slack l.rset pipe (List.range l.desk.client.users.length) blk)
          pure .input : LoopM Next) := by
        refine .bind .get fun l => .bind (fun l' hl' => ?_) fun _ => .pure _
        have hclient := keeps_onClient (I := fun c => c.names = l₁.desk.client.names)
          (keeps_anyChildrenReplied (fun _ _ _ _ h => h)
            (fun c i h => (names_deactivate i c).trans h)
            slack l.rset pipe (List.range l.desk.client.users.length) blk) (fun _ _ _ h => h) pid
        exact hclient l' hl'
      exact hkeeps l₁ rfl
  · rw [if_pos hnext]
    refine .inl ⟨?_, hbefore⟩
    cases next with
    | input => exact absurd rfl hnext
    | again => rfl
    | shut => rfl
    | returned => rfl

end Iteration

/-! ## A `/chat` -/

/-- A line that fits is stored whole in an empty `read_buf`. -/
theorem store_readBuf {line : Bytes} (h : line.length ≤ maxline) :
    store (readBuf []) 0 (cells line) = .ok (readBuf line) := by
  have hsplit : readBuf [] = [] ++ (zeros line.length ++ zeros (maxline - line.length)) := by
    unfold readBuf textBlock zeros
    simp [Nat.add_sub_cancel' h]
  rw [hsplit]
  exact store_append rfl (by simp [zeros])

/-- A `/chat` that is typed adds the user that it names. -/
theorem names_iteration_chat {slack : Slack} (hslack : ∀ blk, slack blk ≠ 0)
    (pid : ℕ → ℕ) {l : Loop} (hopen : l.stdineof = false)
    (hc : ∀ u ∈ l.desk.client.users, 0 ∉ u.username) {w t : Bytes} (hw : IsWord w) (ht : 0 ∉ t)
    (hlen : (userChat ++ 32 :: (w ++ 32 :: t)).length < maxline) (server : ReadResult)
    (pipe : ℕ → ReadResult) :
    ((iteration slack pid [stdinFd] server (.data (userChat ++ 32 :: (w ++ 32 :: t))) pipe).run
      l).2.desk.client.names = (l.desk.client.withUser w).names := by
  obtain ⟨u, -, -, hrun⟩ := run_chatInput_chat hslack hc hw ht hlen
  unfold iteration
  rw [Eff.run_modify_bind, if_neg (by decide)]
  dsimp only [restOfIteration]
  rw [if_neg (not_not.mpr rfl), if_pos (List.mem_singleton_self stdinFd), inputPart_data,
    store_readBuf hlen.le, run_mem_ok_bind, run_inputLine_client]
  dsimp only
  rw [hopen, run_withSocket_false, hrun]
  rfl

/-! ## Runs -/

/-- A call of `process_msg` for a line. -/
structure ChatCall where
  msg : Block
  /-- The usernames before the iteration. -/
  before : List Bytes
  /-- The usernames after it. -/
  after : List Bytes
  /-- How many strings had come from the server by then. -/
  heard : ℕ

/-- A run of `regular_chat`, with what has happened so far. -/
structure PeerRun where
  run : DeskRun
  /-- The strings that have come from the server. -/
  heard : List Bytes
  /-- The calls of `process_msg` for a line. -/
  chats : List ChatCall

/-- The client of a run. -/
def PeerRun.client (s : PeerRun) : Process := s.run.loop.desk.client

/-- The steps of a run. -/
def PeerRun.Step (slack : Slack) (s : PeerRun) (e : DeskEvent) (s' : PeerRun) : Prop :=
  s.run.Step slack e s'.run ∧
    match e with
    | .iterates ready server typed _ pid =>
        s'.heard = s.heard ++ heardIn ready server s.client ∧
        s'.chats = s.chats ++ (chatCall slack pid ready server typed s.run.loop).toList.map
          fun msg => ⟨msg, s.client.names, s'.client.names, s'.heard.length⟩
    | _ => s'.heard = s.heard ∧ s'.chats = s.chats

/-- The state after an iteration. -/
def PeerRun.iterated (slack : Slack) (s : PeerRun) (ready : List ℕ) (server typed : ReadResult)
    (pipe : ℕ → ReadResult) (pid : ℕ → ℕ) : PeerRun where
  run := ⟨((iteration slack pid ready server typed pipe).run s.run.loop).2,
    endsLoop ((iteration slack pid ready server typed pipe).run s.run.loop).1⟩
  heard := s.heard ++ heardIn ready server s.client
  chats := s.chats ++ (chatCall slack pid ready server typed s.run.loop).toList.map fun msg =>
    ⟨msg, s.client.names,
      ((iteration slack pid ready server typed pipe).run s.run.loop).2.desk.client.names,
      (s.heard ++ heardIn ready server s.client).length⟩

/-- An iteration is a step. -/
theorem PeerRun.step_iterated {slack : Slack} {s : PeerRun} (hended : s.run.ended = false)
    {ready : List ℕ} (hready : ∀ fd ∈ ready, fd ∈ s.run.loop.watched) {server typed : ReadResult}
    (hserver : server.Fits) (htyped : typed.Fits) (pipe : ℕ → ReadResult) {pid : ℕ → ℕ}
    (hpid : Forks pid s.run.loop.desk) :
    s.Step slack (.iterates ready server typed pipe pid)
    (s.iterated slack ready server typed pipe pid) :=
  ⟨⟨hended, hready, hserver, htyped, hpid, rfl⟩, rfl, rfl⟩

/-- The start of `regular_chat`; something may have been read already. -/
def PeerRun.Initial (s : PeerRun) : Prop :=
  ∃ buf, s = ⟨⟨⟨⟨Process.initial.withBuf buf, [], []⟩, [], false, []⟩, false⟩, [], []⟩

/-- A string of the server that names a user: `OT u` or `FROM u …`. -/
def Announces (w body : Bytes) : Prop :=
  body = confirmMsgTo ++ 32 :: w ∨ ∃ t, body = msgFrom ++ 32 :: t ∧ firstWord t = w

/-- **No window without a peer.** -/
structure PeerRun.NoWindowWithoutPeer (s : PeerRun) : Prop where
  /-- The server has named every user. -/
  users : ∀ w ∈ s.client.names, ∃ body ∈ s.heard, Announces w body
  /-- The server has named the user of every window. -/
  windows : ∀ win ∈ s.run.loop.desk.windows, ∃ body ∈ s.heard, Announces win.title body
  /-- A `/chat` that the server denies has added nobody. -/
  denied : ∀ call ∈ s.chats, ∀ w, FiledUnder call.msg w →
    noUsr ++ 32 :: w ∈ s.heard.drop call.heard → call.after = call.before

/-- The steps in which `process_msg` adds nobody but on a `FROM`: a string that is handed to the
handler of `FROM` begins with `FROM ` or with the name of a user behind its first word, and a line
for `process_msg` has the name of a user. -/
def PeerRun.Introduced (slack : Slack) (s : PeerRun) : DeskEvent → Prop
  | .iterates ready server typed _ pid =>
      (∀ body ∈ heardIn ready server s.client, TakesFrom (firstWord body) →
        msgFrom ++ [32] <+: body ∨ firstWord (behindWord body) ∈ s.client.names) ∧
      ∀ msg ∈ chatCall slack pid ready server typed s.run.loop, ∀ w, FiledUnder msg w →
        w ∈ s.client.names
  | _ => True

/-! ## The invariant -/

/-- A call for what was read is for a string that has come. -/
theorem exists_heard_of_readCall {ready : List ℕ} {server : ReadResult} {c : Process} {msg : Block}
    {w : Bytes} (h : msg ∈ (received ready server).bind fun b => (readCall b c).map Prod.fst)
    (hw : FiledUnder msg w) : ∃ body ∈ heardIn ready server c,
      TakesFrom (firstWord body) ∧ firstWord (behindWord body) = w := by
  obtain ⟨b, hb, hmsg⟩ := Option.bind_eq_some_iff.mp h
  obtain ⟨⟨msg', c₁⟩, hcall, rfl⟩ := Option.map_eq_some_iff.mp hmsg
  obtain ⟨-, processStr, -, hrun, hfrom⟩ := exists_of_readCall hcall
  obtain ⟨body, h0, rfl⟩ := exists_of_processRead hrun
  refine ⟨body, ?_, ?_⟩
  · unfold heardIn
    rw [hb]
    dsimp only
    rw [hrun]
    show body ∈ (cstr (textBlock body 4)).toOption.toList
    rw [cstr_textBlock h0 (by decide)]
    exact List.mem_singleton_self body
  · obtain ⟨j, hj, hmsg⟩ := fromMsg_textBlock body
    rw [hmsg] at hfrom
    split_ifs at hfrom with htakes
    · obtain rfl : textBlock (behindWord body) j = msg' := by simpa using hfrom
      obtain ⟨c', rest, hc', hblk⟩ := exists_textBlock_eq (behindWord body) hj
      exact ⟨htakes, FiledUnder.unique ⟨isWord_firstWord _, c', rest, hc', hblk⟩ hw⟩
    · cases hfrom

/-- What holds in a run. -/
structure PeerRun.Holds (s : PeerRun) : Prop where
  run : s.run.Holds
  users : ∀ w ∈ s.client.names, ∃ body ∈ s.heard, Announces w body
  chats : ∀ call ∈ s.chats, call.after = call.before

/-- A name that is in the list stays known when more is heard. -/
theorem PeerRun.Holds.known {s : PeerRun} (h : s.Holds) {w : Bytes} (hw : w ∈ s.client.names)
    (more : List Bytes) : ∃ body ∈ s.heard ++ more, Announces w body := by
  obtain ⟨body, hbody, hannounces⟩ := h.users w hw
  exact ⟨body, List.mem_append_left _ hbody, hannounces⟩

/-- A line for a user that the client has adds nobody. -/
theorem Process.NamesAfter.eq {c c' : Process} {call : Option Block} (h : c.NamesAfter call c')
    (hknown : ∀ msg ∈ call, ∀ w, FiledUnder msg w → w ∈ c.names) : c'.names = c.names := by
  rcases h with hsame | ⟨msg, hmsg, w, hfiled, hnew, -⟩
  · exact hsame
  · exact absurd (hknown msg hmsg w hfiled) hnew

/-- An iteration. -/
theorem PeerRun.Holds.iterates {slack : Slack} {s s' : PeerRun} {ready : List ℕ}
    {server typed : ReadResult} {pipe : ℕ → ReadResult} {pid : ℕ → ℕ} (h : s.Holds)
    (hknown : s.Introduced slack (.iterates ready server typed pipe pid))
    (hst : s.Step slack (.iterates ready server typed pipe pid) s') : s'.Holds := by
  obtain ⟨hrun, hheard, hchats⟩ := hst
  obtain ⟨hfrom, hchat⟩ := hknown
  have hafter := hrun.2.2.2.2.2
  have hzero : ∀ u ∈ s.client.users, 0 ∉ u.username := fun u hu =>
    (h.run.tidy.wellFormed.words _ (List.mem_map_of_mem hu)).zero_notMem
  have hnames := names_iteration slack pid ready server typed hzero pipe
  have hclient : s'.client =
      ((iteration slack pid ready server typed pipe).run s.run.loop).2.desk.client := by
    unfold PeerRun.client
    rw [hafter]
  rw [← hclient] at hnames
  refine ⟨h.run.step hrun, ?_, ?_⟩
  · intro w hw
    rw [hheard]
    rcases hnames with ⟨-, hsame | ⟨msg, hmsg, v, hfiled, hnew, heq⟩⟩ | hline
    · exact h.known (hsame ▸ hw) _
    · rw [heq] at hw
      rcases List.mem_append.mp hw with hold | hadded
      · exact h.known hold _
      obtain rfl := List.mem_singleton.mp hadded
      obtain ⟨body, hbody, htakes, hfirst⟩ := exists_heard_of_readCall hmsg hfiled
      rcases hfrom body hbody htakes with ⟨t, rfl⟩ | hmem
      · refine ⟨_, List.mem_append_right _ hbody, .inr ⟨t, by simp, ?_⟩⟩
        rw [← hfirst]
        rfl
      · exact absurd (hfirst ▸ hmem) hnew
    · exact h.known (hline.eq hchat ▸ hw) _
  · intro call hcall
    rw [hchats] at hcall
    rcases List.mem_append.mp hcall with hold | hadded
    · exact h.chats call hold
    obtain ⟨msg, hmsg, rfl⟩ := List.mem_map.mp hadded
    rcases hnames with ⟨hnone, -⟩ | hline
    · have hclosed : chatCall slack pid ready server typed s.run.loop = none := hnone
      rw [hclosed] at hmsg
      cases hmsg
    · exact hline.eq hchat

/-- A step that leaves the names. -/
theorem PeerRun.Holds.of_names {s s' : PeerRun} (h : s.Holds) (hrun : s'.run.Holds)
    (hnames : s'.client.names = s.client.names) (hheard : s'.heard = s.heard)
    (hchats : s'.chats = s.chats) : s'.Holds := by
  refine ⟨hrun, ?_, ?_⟩
  · rw [hnames, hheard]
    exact h.users
  · rw [hchats]
    exact h.chats

/-- **One step.** -/
theorem PeerRun.Holds.step {slack : Slack} {s s' : PeerRun} {e : DeskEvent} (h : s.Holds)
    (hknown : s.Introduced slack e) (hst : s.Step slack e s') : s'.Holds := by
  cases e with
  | iterates ready server typed pipe pid => exact h.iterates hknown hst
  | exits n =>
      obtain ⟨hrun, hheard, hchats⟩ := hst
      apply h.of_names (h.run.step hrun) _ hheard hchats
      unfold PeerRun.client
      rw [hrun]
      rfl
  | sigchild pids =>
      obtain ⟨hrun, hheard, hchats⟩ := hst
      apply h.of_names (h.run.step hrun) _ hheard hchats
      obtain ⟨-, -, hok, herror⟩ := hrun
      unfold PeerRun.client
      cases hd : sigchildHandler s.run.loop.desk pids with
      | ok d =>
          have hnames := keeps_sigchildHandler (I := fun c => c.names = s.client.names)
            (fun c i h => (names_deactivate i c).trans h) hd rfl
          rw [hok d hd]
          exact hnames
      | error f => rw [herror f hd]

/-- At the start there are no users. -/
theorem PeerRun.Initial.holds {s : PeerRun} (h : s.Initial) : s.Holds := by
  obtain ⟨buf, rfl⟩ := h
  refine ⟨DeskRun.holds_withBuf buf, ?_, ?_⟩
  · intro w hw
    cases hw
  · intro call hcall
    cases hcall

/-- **No window without a peer**: in every run in which `process_msg` adds nobody but on a `FROM`,
whatever the server sends, the server has named every user and the user of every window, and a
`/chat` that it denies has added nobody. -/
theorem PeerRun.noWindowWithoutPeer (slack : Slack) {s : PeerRun}
    (h : Reaches PeerRun.Initial (PeerRun.Introduced slack) (PeerRun.Step slack) s) :
    s.NoWindowWithoutPeer := by
  have hholds : s.Holds :=
    h.invariant (fun _ hinit => hinit.holds) fun _ _ _ hs hknown hst => hs.step hknown hst
  refine ⟨hholds.users, ?_, fun call hcall _ _ _ => hholds.chats call hcall⟩
  intro win hwin
  apply hholds.users
  have htitles : s.run.loop.desk.windows.map Window.title = s.client.names := by
    have hmap := congrArg (List.map fun x : Bytes × ℕ × ℕ => x.1) hholds.run.tidy.owned
    rwa [List.map_map, List.map_map] at hmap
  rw [← htitles]
  exact List.mem_map_of_mem hwin

/-- A client without users. -/
private def alone : PeerRun := ⟨⟨⟨⟨.initial, [], []⟩, [], false, []⟩, false⟩, [], []⟩

/-- It is the start of a run. -/
private theorem initial_alone : alone.Initial := ⟨.of [], rfl⟩

/-- There is no window whose id could come again. -/
private theorem forks_alone : Forks id alone.run.loop.desk := ⟨fun _ _ h => h, by simp [alone]⟩

/-- The client when somebody has written. -/
private def written : PeerRun :=
  alone.iterated (fun _ => 1) [sockFd] (.data (messageFrame [97] [104]))
    .failed (fun _ => .failed) id

/-- Somebody who writes gets a window. -/
theorem PeerRun.noWindowWithoutPeer_written : ∃ s : PeerRun,
    Reaches PeerRun.Initial (PeerRun.Introduced fun _ => 1) (PeerRun.Step fun _ => 1) s ∧
      [97] ∈ s.client.names ∧
      s.NoWindowWithoutPeer := by
  obtain ⟨u, -, -, hrun⟩ := run_iteration_messageFrame (c := .initial) (w := [97]) (t := [104])
    (not_overread (fun _ => Nat.one_ne_zero) _ _) rfl (by simp [Process.initial]) (by decide)
      (by decide) (by decide) id
    alone.run.loop rfl rfl .failed (fun _ => .failed)
  have hheard : heardIn [sockFd] (.data (messageFrame [97] [104])) alone.client =
      [msgFrom ++ 32 :: ([97] ++ 32 :: [104])] := by
    have hprocess := run_processRead_messageFrame (c := .initial) (w := [97]) (t := [104])
      rfl (by decide) (by decide) (by decide)
    have hreceived : received [sockFd] (.data (messageFrame [97] [104])) =
        some (messageFrame [97] [104]) := rfl
    have halone : alone.client = .initial := rfl
    unfold heardIn
    rw [hreceived]
    dsimp only
    rw [halone, hprocess]
    rfl
  have hchat : chatCall (fun _ => 1) id [sockFd] (.data (messageFrame [97] [104]))
    .failed alone.run.loop =
      none :=
    chatCall_of_readCall (fun _ => 1) id rfl (readCall_messageFrame rfl (by decide)
      (by decide) (by decide))
  have hintroduced : alone.Introduced (fun _ => 1)
      (.iterates [sockFd] (.data (messageFrame [97] [104])) .failed (fun _ => .failed) id) := by
    refine ⟨?_, ?_⟩
    · rw [hheard]
      intro body hbody _
      obtain rfl := List.mem_singleton.mp hbody
      exact .inl ⟨[97] ++ 32 :: [104], by simp⟩
    · rw [hchat]
      intro msg hmsg
      cases hmsg
  have hreaches : Reaches PeerRun.Initial (PeerRun.Introduced fun _ => 1)
      (PeerRun.Step fun _ => 1) written := by
    apply Reaches.step (.start initial_alone) hintroduced
    refine PeerRun.step_iterated rfl ?_ ?_ ?_ _ forks_alone
    · simp [Loop.watched]
    · exact ⟨by decide, by decide⟩
    · trivial
  have hnames : written.client.names = [[97]] := by
    unfold PeerRun.client written PeerRun.iterated
    dsimp only
    rw [hrun]
    rfl
  refine ⟨written, hreaches, ?_, PeerRun.noWindowWithoutPeer (fun _ => 1) hreaches⟩
  rw [hnames]
  exact List.mem_singleton_self _

/-- What is typed for a `/chat`. -/
private def chatTyped : ReadResult := .data (userChat ++ 32 :: ([98] ++ 32 :: [104, 105, 10]))

/-- The client when it is typed. -/
private def called : PeerRun :=
  alone.iterated (fun _ => 1) [stdinFd] .failed chatTyped (fun _ => .failed) id

/-- A `/chat` to somebody whom the server has not named. -/
theorem PeerRun.not_noWindowWithoutPeer : ¬∀ slack s,
    Reachable PeerRun.Initial (PeerRun.Step slack) s → s.NoWindowWithoutPeer := by
  intro hall
  have hstep : alone.Step (fun _ => 1) (.iterates [stdinFd] .failed chatTyped (fun _ => .failed) id)
      called := by
    refine PeerRun.step_iterated rfl ?_ ?_ ?_ _ forks_alone
    · simp [alone, Loop.watched]
    · trivial
    · exact ⟨by decide, by decide⟩
  have hmem : [98] ∈ called.client.names := by
    unfold PeerRun.client called PeerRun.iterated
    dsimp only [chatTyped]
    rw [names_iteration_chat (fun _ => Nat.one_ne_zero) id rfl (by simp [alone, Process.initial])
      (by decide) (by decide) (by decide)]
    exact List.mem_singleton_self _
  have hnone : called.heard = [] := rfl
  obtain ⟨body, hbody, -⟩ :=
    (hall (fun _ => 1) called (Reachable.next (.start initial_alone) hstep)).users [98] hmem
  rw [hnone] at hbody
  cases hbody

end ME2U.Client
