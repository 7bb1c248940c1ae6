import ME2U.Found.Runs
import ME2U.Client.Dispatch
import ME2U.Client.Login

/-!
# The windows of a client

`create_new_user` starts a process for the window of a user and keeps its id in the list of users.
When the window is closed the process exits, and `sigchild_handler` marks the user as inactive. Only
that: `process_msg` looks for the name, finds the user, and writes to a pipe that nobody reads.

* `iteration`: one iteration of `regular_chat`, with what `select` and the reads return.
* `DeskRun.Step`: iterations, windows that are closed, and signals, in any order.
* `processMsg_cases`: what `process_msg` has done where it returns.
-/

namespace ME2U.Client

/-! ## State -/

/-- A process that was started for a window. -/
structure Window where
  pid : ℕ
  title : Bytes
  rd : ℕ
  wrt : ℕ
  /-- Whether it has exited. -/
  exited : Bool
  /-- Whether `waitpid` has returned it. -/
  reaped : Bool
  deriving DecidableEq

/-- A client with the windows that it has started. -/
structure Desk where
  client : Process
  /-- The ids in the list of users, in its order.
  Source: `client.h` `list_user` (line 70) -/
  pids : List ℕ
  windows : List Window

/-- A call of `process_msg` that has returned. -/
structure Filing where
  msg : Block
  before : Desk
  after : Desk

/-- The state of `regular_chat`. -/
structure Loop where
  desk : Desk
  /-- `rset` -/
  rset : List ℕ
  /-- `stdineof` -/
  stdineof : Bool
  /-- The calls of `process_msg` so far. -/
  filings : List Filing

/-- A computation in `regular_chat`. -/
abbrev LoopM (α : Type) := Eff Loop Halt α

/-- The window that is started for a user. `fork` returns `pid n` when the pipe of the window is
`n`.
Source: `client.c` `create_new_user` (lines 490–511) -/
def windowFor (pid : ℕ → ℕ) (u : UserStruct) : Window :=
  ⟨pid u.wrt, u.username, u.rd, u.wrt, false, false⟩

/-- The desk when the client has got to `c`: each user that was added has a window. -/
def Desk.withClient (pid : ℕ → ℕ) (d : Desk) (c : Process) : Desk where
  client := c
  pids := d.pids ++ (c.users.drop d.client.users.length).map fun u => (windowFor pid u).pid
  windows := d.windows ++ (c.users.drop d.client.users.length).map (windowFor pid)

/-! ## The calls of `process_msg` -/

/-- What `process_msg` is called with for a string of the server, if it is.
Source: `client.c` `regular_chat` (lines 231–245) -/
def fromMsg (processStr : Block) : Except Fault (Option Block) := do
  let firstWdL ← wordLength processStr
  let v ← firstSelected ServerVerb.text processStr firstWdL ServerVerb.all
  .ok (if v = some .fromUser then some (processStr.drop (firstWdL + 1)) else none)

/-- What `process_msg` is called with for a line, if it is.
Source: `client.c` `regular_chat` (lines 271–293) -/
def chatMsg (readBuf : Block) : Except Fault (Option Block) := do
  let c ← command readBuf
  .ok (if c = some .chat then some ((readBuf.drop userChat.length).drop 1) else none)

/-- `process_string` on what was read. -/
def processRead (b : Bytes) : Chat (Option Block) :=
  Eff.zoom Process.buf (fun s c => { c with buf := s }) Halt.fault (processString (readBuf b))

/-- The call that is made for a `read` from the server, and the state in which it is. -/
def readCall (b : Bytes) (c : Process) : Option (Block × Process) :=
  match (processRead b).run c with
  | (.ok (some processStr), c') => ((fromMsg processStr).toOption.join).map (·, c')
  | _ => none

/-- The call that is made for a line, and the state in which it is. -/
def inputCall (blk : Block) (c : Process) : Option (Block × Process) :=
  ((chatMsg blk).toOption.join).map (·, c)

/-! ## Writes behind `shutdown` -/

/-- What is left of `c'`, which was reached from `c`, when the first write to the socket was the
last. -/
def Process.untilSock (c c' : Process) : Process :=
  { c' with
    wrote := c'.wrote.take (c.wrote.length + (c'.wrote.drop c.wrote.length).findIdx (·.1 = .sock)) }

/-- A computation where the socket may be shut down for writing: the first write to it raises
`SIGPIPE` then, which ends the process. -/
def withSocket {α : Type} (shut : Bool) (m : Chat α) : Chat α := ⟨fun c =>
  if shut ∧ (.sock : Fd) ∈ ((m.run c).2.wrote.drop c.wrote.length).map Prod.fst then
    (.error .sigpipe, c.untilSock (m.run c).2)
  else m.run c⟩

section Loop

variable (slack : Slack) (pid : ℕ → ℕ)

/-- A part of `regular_chat` that works on the client. -/
def onClient {α : Type} (m : Chat α) : LoopM α := do
  let l ← Eff.get
  Eff.zoom (fun l => l.desk.client) (fun c l => { l with desk := l.desk.withClient pid c }) id
    (withSocket l.stdineof m)

/-- Put a call on record, if it returns. -/
def record : Option (Block × Process) → LoopM Unit
  | none => pure ()
  | some (msg, c) => Eff.modify fun l =>
      match (processMsg slack msg).run c with
      | (.ok _, c') =>
          let before : Desk := { l.desk with client := c }
          { l with filings := l.filings ++ [⟨msg, before, before.withClient pid c'⟩] }
      | (.error _, _) => l

/-! ## One iteration -/

/-- The descriptor of the terminal. -/
def stdinFd : ℕ := 0
/-- The descriptor of the socket. -/
def sockFd : ℕ := 3

/-- What is done with the bytes read from the server.
Source: `client.c` `regular_chat` (lines 229–262) -/
def serverString (b : Bytes) : LoopM (Next × Block) := do
  let l ← Eff.get
  record slack pid (readCall b l.desk.client)
  let next ← onClient pid (chatRead slack b)
  pure (next, readBuf b)

/-- The server's part, and `read_buf` after it.
Source: `client.c` `regular_chat` (lines 221–263) -/
def serverPart : ReadResult → LoopM (Next × Block)
  | .eof => do
      let l ← Eff.get
      if l.stdineof then pure (.returned, readBuf [])
      else Eff.stop (.error "chat procedure: server terminated prematurely")
  | .failed => serverString slack pid []
  | .data b => serverString slack pid b

/-- `stdineof = 1`, `shutdown` and `FD_CLR`.
Source: `client.c` `regular_chat` (lines 266–269, 304–308) -/
def shutInput : LoopM Next := do
  Eff.modify fun l => { l with stdineof := true, rset := l.rset.filter (· ≠ stdinFd) }
  pure .again

/-- What is done with a line. -/
def inputLine (blk : Block) : LoopM Next := do
  let l ← Eff.get
  record slack pid (inputCall blk l.desk.client)
  let next ← onClient pid (chatInput slack blk)
  if next = .shut then shutInput else pure next

/-- The user's part.
Source: `client.c` `regular_chat` (lines 265–314) -/
def inputPart (blk : Block) : ReadResult → LoopM Next
  | .eof => shutInput
  | .failed => inputLine slack pid blk
  | .data line => do
      let blk ← mem (store blk 0 (cells line))
      inputLine slack pid blk

/-- The frame of what was typed in a window.
Source: `client.c` `any_children_replied` (lines 329–340) -/
def childFrame (username : Bytes) (newBuf : Block) : Except Fault Bytes := do
  let n ← strlen newBuf
  let newStr ← memcpy (calloc (msgTo.length + n + 24)) (textBlock msgTo 1) msgTo.length
  let i ← strlen newStr
  let m ← strlen (nameBlock slack username)
  let newStr ← store newStr i ((nameBlock slack username).take m)
  let i ← strlen newStr
  let newStr ← store newStr i [some 32]
  let i ← strlen newStr
  let newStr ← store newStr i (newBuf.take n)
  let i ← strlen newStr
  let newStr ← store newStr i (cells ending)
  cstr newStr

/-- `active = false` -/
def deactivate (i : ℕ) (c : Process) : Process :=
  { c with users := c.users.modify i fun u => { u with active := false } }

/-- A window from whose pipe something is read; `read_buf` after that. An inactive user is passed
over when the loop comes back to it.
Source: `client.c` `any_children_replied` (lines 328–346), and the same for the other end of the
pipe (lines 348–366) -/
def childReplied (i : ℕ) (u : UserStruct) (blk : Block) : ReadResult → Chat Block
  | .eof => do
      Eff.modify (deactivate i)
      pure blk
  | r => do
      let blk ← match r with
        | .data b => mem (store blk 0 (cells b))
        | _ => pure blk
      let newStr ← mem (childFrame slack u.username blk)
      write .stdout newStr
      write .sock newStr
      pure blk

/-- The loop over the users, by their indices.
Source: `client.c` `any_children_replied` (lines 321–372) -/
def anyChildrenReplied (rset : List ℕ) (pipe : ℕ → ReadResult) : List ℕ → Block → Chat Unit
  | [], _ => pure ()
  | i :: rest, blk => do
      let c ← Eff.get
      match c.users[i]? with
      | none => pure ()
      | some u =>
          if u.active ∧ (u.rd ∈ rset ∨ u.wrt ∈ rset) then do
            let blk ← childReplied slack i u blk (pipe u.rd)
            anyChildrenReplied rset pipe rest blk
          else anyChildrenReplied rset pipe rest blk

/-- From what the server's part has returned to the next iteration.
Source: `client.c` `regular_chat` (lines 265–316) -/
def restOfIteration (ready : List ℕ) (typed : ReadResult) (pipe : ℕ → ReadResult)
    (r : Next × Block) : LoopM Next :=
  if r.1 ≠ .input then pure r.1
  else if stdinFd ∈ ready then inputPart slack pid r.2 typed
  else do
    let l ← Eff.get
    onClient pid
      (anyChildrenReplied slack l.rset pipe (List.range l.desk.client.users.length) r.2)
    pure .input

/-- An iteration in which `select` leaves `ready` in `rset`.
Source: `client.c` `regular_chat` (lines 220–316) -/
def iteration (ready : List ℕ) (server typed : ReadResult) (pipe : ℕ → ReadResult) :
    LoopM Next := do
  Eff.modify fun l => { l with rset := ready }
  if sockFd ∈ ready then do
    let r ← serverPart slack pid server
    restOfIteration slack pid ready typed pipe r
  else restOfIteration slack pid ready typed pipe (.input, readBuf [])

end Loop

/-! ## Runs -/

/-- Source: `client.c` `find_user_pid` (lines 581–590) -/
def findUserPid (pids : List ℕ) (pid : ℕ) : Option ℕ := pids.findIdx? (· == pid)

/-- The loop over the ids that `waitpid` returns; every entry of the list has a user.
Source: `client.c` `sigchild_handler` (lines 569–579) -/
def sigchildHandler (d : Desk) : List ℕ → Except Fault Desk
  | [] => .ok d
  | pid :: more =>
      match findUserPid d.pids pid with
      | none => .error .nullPointer
      | some i => sigchildHandler { d with client := deactivate i d.client } more

/-- The windows that have exited, and `waitpid` has not returned yet. -/
def Desk.zombies (d : Desk) : List Window := d.windows.filter fun win => win.exited && !win.reaped

/-- The desk when `waitpid` has returned all of them. -/
def Desk.reap (d : Desk) : Desk :=
  { d with windows := d.windows.map fun win => { win with reaped := win.reaped || win.exited } }

/-- The desk when the window at pipe `n` has exited. -/
def Desk.exit (n : ℕ) (d : Desk) : Desk :=
  { d with windows := d.windows.map fun win =>
      { win with exited := win.exited || decide (win.wrt = n) } }

/-- `fork` returns different ids, and none that is in use; the id of a process that `waitpid` has
returned may come again. -/
structure Forks (pid : ℕ → ℕ) (d : Desk) : Prop where
  injective : Function.Injective pid
  unused : ∀ win ∈ d.windows, win.reaped = false → ∀ n, pid n ≠ win.pid

/-- A run of `regular_chat`. -/
structure DeskRun where
  loop : Loop
  /-- Whether `regular_chat` has returned or the client has ended. -/
  ended : Bool

/-- What happens in a run. -/
inductive DeskEvent
  /-- An iteration, with what `select` leaves in `rset`, what the reads return and what `fork`
  returns. -/
  | iterates (ready : List ℕ) (server typed : ReadResult) (pipe : ℕ → ReadResult) (pid : ℕ → ℕ)
  /-- The window at a pipe is closed. -/
  | exits (n : ℕ)
  /-- `SIGCHLD` is handled, and `waitpid` returns these ids. -/
  | sigchild (pids : List ℕ)

/-- The descriptors `select` is called with. `set_fd_for_childs` works on a copy of `rset`, and adds
none.
Source: `client.c` `regular_chat` (lines 213–219) -/
def Loop.watched (l : Loop) : List ℕ :=
  (if l.stdineof then [] else [stdinFd]) ++ sockFd :: l.rset

/-- Whether `regular_chat` does not go on. -/
def endsLoop : Except Halt Next → Bool
  | .ok .returned => true
  | .ok _ => false
  | .error _ => true

/-- The steps of a run. -/
def DeskRun.Step (slack : Slack) (s : DeskRun) : DeskEvent → DeskRun → Prop
  | .iterates ready server typed pipe pid, s' =>
      s.ended = false ∧ (∀ fd ∈ ready, fd ∈ s.loop.watched) ∧ server.Fits ∧ typed.Fits ∧
        Forks pid s.loop.desk ∧
        s' = ⟨((iteration slack pid ready server typed pipe).run s.loop).2,
          endsLoop ((iteration slack pid ready server typed pipe).run s.loop).1⟩
  | .exits n, s' => s' = { s with loop := { s.loop with desk := s.loop.desk.exit n } }
  | .sigchild pids, s' => s.ended = false ∧ pids.Perm (s.loop.desk.zombies.map Window.pid) ∧
      (∀ d, sigchildHandler s.loop.desk pids = .ok d →
        s' = { s with loop := { s.loop with desk := d.reap } }) ∧
      (∀ f, sigchildHandler s.loop.desk pids = .error f → s' = { s with ended := true })

/-- The start of `regular_chat`. -/
def DeskRun.Initial (s : DeskRun) : Prop :=
  s = ⟨⟨⟨.initial, [], []⟩, [], false, []⟩, false⟩

/-- The states that the runs reach. -/
abbrev DeskRun.Reached (slack : Slack) : DeskRun → Prop :=
  Reachable DeskRun.Initial (DeskRun.Step slack)

/-! ## Writes behind `shutdown` -/

section Shut

variable {α : Type} {m : Chat α}

@[simp] theorem run_withSocket_false (m : Chat α) (c : Process) :
    (withSocket false m).run c = m.run c := by
  simp [withSocket]

/-- A computation runs as it would otherwise, or is ended by `SIGPIPE`. -/
theorem withSocket_cases (shut : Bool) (m : Chat α) (c : Process) :
    (withSocket shut m).run c = m.run c ∨
      (withSocket shut m).run c = (.error .sigpipe, c.untilSock (m.run c).2) := by
  unfold withSocket
  dsimp only
  split
  · exact .inr rfl
  · exact .inl rfl

/-- Where it returns, nothing has ended it. -/
theorem run_of_withSocket_ok {shut : Bool} {c c' : Process} {a : α}
    (h : (withSocket shut m).run c = (.ok a, c')) : m.run c = (.ok a, c') := by
  rcases withSocket_cases shut m c with hsame | hpipe
  · exact hsame ▸ h
  · rw [hpipe] at h
    cases h

/-- What a computation and an end by `SIGPIPE` keep. -/
theorem keeps_withSocket {I : Process → Prop} (hm : Eff.Keeps I m)
    (hcut : ∀ c c', I c → I c' → I (c.untilSock c')) (shut : Bool) :
    Eff.Keeps I (withSocket shut m) := by
  intro c hc
  rcases withSocket_cases shut m c with hsame | hpipe
  · rw [hsame]
    exact hm c hc
  · rw [hpipe]
    exact hcut c _ hc (hm c hc)

/-- Where nothing is written to the socket, it makes no difference whether that is shut down. -/
theorem run_withSocket_of_wrote_eq {shut : Bool} {c c' : Process} {r : Except Halt α}
    (h : m.run c = (r, c')) (hwrote : shut = true → c'.wrote = c.wrote) :
    (withSocket shut m).run c = (r, c') := by
  cases shut with
  | false => rwa [run_withSocket_false]
  | true =>
      have hnone : (.sock : Fd) ∉ (c'.wrote.drop c.wrote.length).map Prod.fst := by
        simp [hwrote rfl]
      unfold withSocket
      simp only [h, hnone, and_false, if_false]

/-- A part of `regular_chat` on the client. -/
theorem run_onClient (pid : ℕ → ℕ) (m : Chat α) (l : Loop) :
    (onClient pid m).run l = (((withSocket l.stdineof m).run l.desk.client).1,
      { l with desk := l.desk.withClient pid ((withSocket l.stdineof m).run
        l.desk.client).2 }) := by
  unfold onClient
  rw [Eff.run_get_bind, Eff.run_zoom]
  rcases ((withSocket l.stdineof m).run l.desk.client).1 with _ | _ <;> rfl

/-- What a computation on the client keeps, in the loop. -/
theorem keeps_onClient {I : Process → Prop} (hm : Eff.Keeps I m)
    (hcut : ∀ c c', I c → I c' → I (c.untilSock c')) (pid : ℕ → ℕ) :
    Eff.Keeps (fun l => I l.desk.client) (onClient pid m) := by
  intro l hl
  rw [run_onClient]
  exact keeps_withSocket hm hcut l.stdineof _ hl

end Shut

/-! ## What `process_msg` does -/

/-- A message for the user `w`: its first word, and the text behind it. -/
def Addressed (msg : Block) (w text : Bytes) : Prop :=
  IsWord w ∧ ∃ c q, IsSep c ∧ msg = cells w ++ some c :: q ∧ cstr q = .ok text

/-- A word and what is behind it can be read off a block in one way only. -/
theorem eq_of_cells_append_sep {w w' : Bytes} (hw : IsWord w) (hw' : IsWord w') {c c' : UInt8}
    (hc : IsSep c) (hc' : IsSep c') {q q' : Block}
    (h : cells w ++ some c :: q = cells w' ++ some c' :: q') : w = w' ∧ q = q' := by
  have hlen : w.length = w'.length := by
    have h₁ := wordLength_cells hw hc q
    rw [h, wordLength_cells hw' hc'] at h₁
    exact (Except.ok.inj h₁).symm
  obtain ⟨hcells, hrest⟩ := List.append_inj h (by simpa using hlen)
  exact ⟨List.map_injective_iff.mpr (fun _ _ => Option.some.inj) hcells, (List.cons.inj hrest).2⟩

/-- A message has one first word. -/
theorem Addressed.unique {msg : Block} {w w' text text' : Bytes} (h : Addressed msg w text)
    (h' : Addressed msg w' text') : w = w' ∧ text = text' := by
  obtain ⟨hw, c, q, hc, rfl, hq⟩ := h
  obtain ⟨hw', c', q', hc', heq, hq'⟩ := h'
  obtain ⟨rfl, rfl⟩ := eq_of_cells_append_sep hw hw' hc hc' heq
  exact ⟨rfl, Except.ok.inj (hq.symm.trans hq')⟩

/-- **What `process_msg` has done** where it returns: it has written to the pipe of the first user
of the name, whether or not that is active, or to that of a new user. -/
theorem processMsg_cases {slack : Slack} {c c' : Process} (hc : ∀ u ∈ c.users, 0 ∉ u.username)
    {msg : Block} (h : (processMsg slack msg).run c = (.ok (), c')) :
    ∃ w text, Addressed msg w text ∧
      ((∃ u, c.users.find? (·.username == w) = some u ∧
          c' = { c with wrote := c.wrote ++ [(.pipe u.wrt, text)] }) ∨
        (c.users.find? (·.username == w) = none ∧
          c' = { c.addUser w with wrote := c.wrote ++ [(.pipe (c.nextFd + 1), text)] })) := by
  cases hn : wordLength msg with
  | error f =>
      unfold processMsg at h
      rw [hn] at h
      cases h
  | ok n =>
      obtain ⟨w, b, q, rfl, hw, hb, rfl⟩ := exists_of_wordLength hn
      by_cases hslack : Overread slack w c.users
      · rw [run_processMsg_of_fault hc hw hb q hslack] at h
        cases h
      obtain ⟨u, hu, hrun⟩ := run_processMsg_cells hc hw hb q hslack
      rw [hrun] at h
      cases htext : cstr q with
      | error f => rw [htext] at h; cases h
      | ok text =>
          rw [htext] at h
          have hstate := (Prod.mk.inj h).2.symm
          refine ⟨w, text, ⟨hw, b, q, hb, rfl, htext⟩, ?_⟩
          cases hfind : c.users.find? (·.username == w) with
          | some v =>
              rw [Process.withUser_of_find?_eq_some hfind] at hu hstate
              obtain rfl := Option.some.inj (hfind.symm.trans hu)
              exact .inl ⟨v, rfl, hstate⟩
          | none =>
              rw [Process.withUser_of_find?_eq_none hfind] at hu hstate
              have hnew : u.wrt = c.nextFd + 1 := by
                have hadded : (c.addUser w).users.find? (·.username == w) =
                    some ⟨w, 0, 0, c.nextFd, c.nextFd + 1, true⟩ := by
                  simp [Process.addUser, hfind]
                rw [← Option.some.inj (hadded.symm.trans hu)]
              rw [hnew] at hstate
              exact .inr ⟨rfl, hstate⟩

end ME2U.Client
