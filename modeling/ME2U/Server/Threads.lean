import ME2U.Found.Interleaving
import ME2U.Server.Grammar
import ME2U.Server.Listener
import ME2U.Server.Scans

/-!
# The handler threads, step by step

`listen` starts a thread for each connection, and the threads share the list `users` without a lock.
A step of a thread is one look at the list by a loop, one `send`, one `close`, or one change of the
list; between any two steps of a thread the others may take any of theirs. A `send` waits for room
in the buffers of its connection, as the sockets have no timeout.

* `Pc.next`: what a thread does next, wherever it stands in `handle_user`.
* `Pc.step`: the step that it takes, unless it waits for room.
* `Pc.moves_of_next`: the moves that a thread can make, one rule for each.
* `Threads.Step`: connections are accepted and break, and the threads take their steps, in any
  order.
* `Threads.obeyed`: a discipline that every move keeps is obeyed in every run.
-/

namespace ME2U.Server

/-! ## What is shared -/

/-- What a thread does in one step. -/
inductive Act
  /-- `recv` returns. -/
  | receives (data : Bytes)
  /-- It looks at `users`, or goes on without touching anything. -/
  | looks
  /-- `dest.send(encode(ending(body)))` -/
  | sends (dest : Conn) (body : Str)
  /-- `dest.close()` -/
  | closes (dest : Conn)
  /-- `users.append(e)` -/
  | appends (e : Entry)
  /-- `users.remove(e)` -/
  | removes (e : Entry)
  deriving DecidableEq

/-- A step that was taken. -/
structure Deed where
  /-- The connection of the thread. -/
  conn : Conn
  act : Act
  deriving DecidableEq

/-- What the threads share. -/
structure Shared where
  /-- Source: `server.py` `users` (line 20) -/
  users : List Entry
  /-- How many `User` objects were made; each has a number of its own. -/
  made : ℕ
  isOpen : Conn → Bool
  sent : List Sent
  /-- The connections accepted, each with the address of its peer. -/
  accepted : List (Conn × Addr)
  /-- The steps taken, oldest first. -/
  deeds : List Deed

namespace Shared

/-- The world that the functions of the handler work on. -/
def world (σ : Shared) : World := ⟨σ.users.map Entry.user, σ.isOpen, σ.sent⟩

/-- What was done is put on record. -/
def recorded (σ : Shared) (ds : List Deed) : Shared := { σ with deeds := σ.deeds ++ ds }

/-- What an action does. -/
def act (σ : Shared) : Act → Shared
  | .receives _ | .looks => σ
  | .sends dest body => { σ with sent := σ.sent ++ [⟨dest, encode (ending body), σ.isOpen dest⟩] }
  | .closes dest => { σ with isOpen := Function.update σ.isOpen dest false }
  | .appends e => { σ with users := σ.users ++ [e], made := σ.made + 1 }
  | .removes e => { σ with users := σ.users.erase e }

/-- After a step of the thread of a connection. -/
def after (σ : Shared) (conn : Conn) (a : Act) : Shared := (σ.act a).recorded [⟨conn, a⟩]

@[simp] theorem accepted_after (σ : Shared) (conn : Conn) (a : Act) :
    (σ.after conn a).accepted = σ.accepted := by
  cases a <;> rfl

@[simp] theorem deeds_after (σ : Shared) (conn : Conn) (a : Act) :
    (σ.after conn a).deeds = σ.deeds ++ [⟨conn, a⟩] := by
  cases a <;> rfl

end Shared

/-! ## Where a thread stands -/

/-- What the name of the sender is looked up for. -/
inductive Lookup
  | toUser (name msg : Str)
  | morf (name : Str)
  deriving DecidableEq

/-- Where a handler thread stands. A loop over `users` has the index of its iterator. -/
inductive Pc
  /-- In `recv`. -/
  | recv
  /-- In the loop of `check_user_exists`. -/
  | checkUserExists (name : Str) (idx : ℕ)
  /-- `MAI` comes next, then `MOTD`, then the append. -/
  | sendMai (name : Str)
  | sendMotd (name : Str)
  | append (name : Str)
  /-- In the loop of `get_users`. -/
  | getUsers (toRet : Str) (idx : ℕ)
  /-- An answer to its own client comes next. -/
  | reply (body : Str)
  /-- In the loop of `get_name_from_addr`, which is called first. -/
  | getNameFromAddr (call : Lookup) (idx : ℕ)
  /-- In the loop of `find_user_to_send_msg_to`. -/
  | findUserToSendMsgTo (name msg : Str) (fromName : Option Str) (idx : ℕ)
  /-- A `FROM` comes next. -/
  | sendFrom (name : Str) (dest : Conn) (fromName msg : Str)
  /-- In the loop of `send_ot_to_usr`. -/
  | sendOtToUsr (name : Str) (fromName : Option Str) (idx : ℕ)
  /-- An `OT` comes next, and then the loop goes on. -/
  | sendOt (name : Str) (fromName : Str) (idx : ℕ) (dest : Conn)
  /-- In the first loop of `remove_usr_by_addr`. -/
  | removeUsrByAddr (idx : ℕ)
  /-- `EYB` comes next, then the `close`, then the `remove`. -/
  | sendEyb (toRem : Entry)
  | close (toRem : Entry)
  | remove (toRem : Entry)
  /-- In the second loop of `remove_usr_by_addr`. -/
  | broadcastUoff (name : Str) (idx : ℕ)
  /-- A `UOFF` comes next, and then the loop goes on. -/
  | sendUoff (name : Str) (idx : ℕ) (dest : Conn)
  /-- The connection is closed on an unknown request. -/
  | closeUnknown
  /-- The loop was left. -/
  | left
  | raised (e : PyExc)
  deriving DecidableEq

/-- Where the thread goes on with the name. -/
def Lookup.called (fromName : Option Str) : Lookup → Pc
  | toUser name msg => .findUserToSendMsgTo name msg fromName 0
  | morf name => .sendOtToUsr name fromName 0

namespace Pc

/-- Where the thread goes on when it knows what the request is.
Source: `server.py` `handle_user` (lines 53–83) -/
def start : Treatment → Pc
  | .request .me2u => reply Verb.u2em
  | .request (.iam name) => checkUserExists name 0
  | .request .listu => getUsers [] 0
  | .request (.toUser name msg) => getNameFromAddr (.toUser name msg) 0
  | .request (.morf name) => getNameFromAddr (.morf name) 0
  | .request .bye => removeUsrByAddr 0
  | .unsplit => raised .valueError
  | .unknown => closeUnknown

/-- Where the thread goes on after `recv`.
Source: `server.py` `handle_user` (lines 46–51) -/
def received (isOpen : Bool) (data : Bytes) : Pc :=
  if isOpen = false then raised .osError
  else if data = [] then left
  else
    match requestString data with
    | none => raised .unicodeDecodeError
    | some newStr => start (treatment newStr)

/-- `send`, which raises where the connection is not open. -/
def sending (σ : Shared) (dest : Conn) (body : Str) (next : Pc) : Act × Pc :=
  (.sends dest body, if σ.isOpen dest then next else raised .osError)

/-- A loop that looks for an entry. -/
def seeking (σ : Shared) (idx : ℕ) (halts : Entry → Bool) (found : Entry → Pc)
    (next exhausted : Pc) :
    Act × Pc :=
  (.looks, match σ.users[idx]? with
    | none => exhausted
    | some i => if halts i then found i else next)

/-- What the thread of a connection does next, unless it waits in `recv` or has ended.
Source: `server.py` `handle_user` and the functions that it calls (lines 43–139) -/
def next (conn : Conn) (addr : Addr) (σ : Shared) : Pc → Option (Act × Pc)
  | recv | left | raised _ => none
  | checkUserExists name idx =>
      seeking σ idx (fun x => x.user.name == name) (fun _ => left) (checkUserExists name (idx + 1))
        (sendMai name)
  | sendMai name => sending σ conn Verb.mai (sendMotd name)
  | sendMotd name => sending σ conn (Verb.motd ++ ' ' :: motd) (append name)
  | append name => some (.appends ⟨σ.made, name, conn, addr⟩, recv)
  | getUsers toRet idx =>
      some (.looks, match σ.users[idx]? with
        | none => reply (Verb.utsil ++ ' ' :: toRet)
        | some usr => getUsers (toRet ++ ' ' :: usr.user.name) (idx + 1))
  | reply body => sending σ conn body recv
  | getNameFromAddr call idx =>
      seeking σ idx (fun i => i.user.addr == addr) (fun i => call.called (some i.user.name))
        (getNameFromAddr call (idx + 1)) (call.called none)
  | findUserToSendMsgTo name msg fromName idx =>
      seeking σ idx (fun i => i.user.name == name)
        (fun i => match fromName with
          | none => raised .typeError
          | some s => sendFrom name i.user.conn s msg)
        (findUserToSendMsgTo name msg fromName (idx + 1)) (reply (Verb.edne ++ ' ' :: name))
  | sendFrom _ dest fromName msg =>
      sending σ dest (Verb.fromUser ++ ' ' :: (fromName ++ ' ' :: msg)) recv
  | sendOtToUsr name fromName idx =>
      seeking σ idx (fun i => i.user.name == name)
        (fun i => match fromName with
          | none => raised .typeError
          | some s => sendOt name s (idx + 1) i.user.conn)
        (sendOtToUsr name fromName (idx + 1)) recv
  | sendOt name fromName idx dest =>
      sending σ dest (Verb.ot ++ ' ' :: fromName) (sendOtToUsr name (some fromName) idx)
  | removeUsrByAddr idx =>
      seeking σ idx (fun i => i.user.addr == addr) sendEyb (removeUsrByAddr (idx + 1))
        (raised .attributeError)
  | sendEyb toRem => sending σ toRem.user.conn Verb.eyb (close toRem)
  | close toRem => some (.closes toRem.user.conn, remove toRem)
  | remove toRem =>
      -- `list.remove` raises where the object is not in the list
      if toRem ∈ σ.users then some (.removes toRem, broadcastUoff toRem.user.name 0)
      else some (.looks, raised .valueError)
  | broadcastUoff name idx =>
      seeking σ idx (fun _ => true) (fun i => sendUoff name (idx + 1) i.user.conn) recv recv
  | sendUoff name idx dest => sending σ dest (Verb.uoff ++ ' ' :: name) (broadcastUoff name idx)
  | closeUnknown => some (.closes conn, recv)

/-- The next step of the thread of a connection. `send` returns when its bytes are in the buffers of
the connection, and waits where there is no room for them.
Source: `server.py` `send` on a socket without a timeout (lines 55–76, 90, 97, 106, 119) -/
def step (room : Conn → Bool) (conn : Conn) (addr : Addr) (σ : Shared) (pc : Pc) :
    Option (Act × Pc) :=
  match pc.next conn addr σ with
  | some (.sends dest body, pc') =>
      if σ.isOpen dest = true ∧ room dest = false then none else some (.sends dest body, pc')
  | x => x

/-! ## The moves -/

/-- The moves of the thread of a connection. -/
inductive Moves (conn : Conn) (addr : Addr) (σ : Shared) : Pc → Act → Pc → Prop
  /-- `recv` returns. -/
  | receives {data} : Moves conn addr σ recv (.receives data) (received (σ.isOpen conn) data)
  | nameTaken {name idx i} : σ.users[idx]? = some i → i.user.name = name →
      Moves conn addr σ (checkUserExists name idx) .looks left
  | nameNext {name idx i} : σ.users[idx]? = some i → i.user.name ≠ name →
      Moves conn addr σ (checkUserExists name idx) .looks (checkUserExists name (idx + 1))
  | nameFree {name idx} : σ.users[idx]? = none →
      Moves conn addr σ (checkUserExists name idx) .looks (sendMai name)
  | mai {name} : Moves conn addr σ (sendMai name) (.sends conn Verb.mai) (sendMotd name)
  | motd {name} :
      Moves conn addr σ (sendMotd name) (.sends conn (Verb.motd ++ ' ' :: Server.motd))
        (append name)
  | registers {name} : Moves conn addr σ (append name) (.appends ⟨σ.made, name, conn, addr⟩) recv
  | usersNext {toRet idx i} : σ.users[idx]? = some i →
      Moves conn addr σ (getUsers toRet idx)
        .looks (getUsers (toRet ++ ' ' :: i.user.name) (idx + 1))
  | usersEnd {toRet idx} : σ.users[idx]? = none →
      Moves conn addr σ (getUsers toRet idx) .looks (reply (Verb.utsil ++ ' ' :: toRet))
  | replies {body} : Moves conn addr σ (reply body) (.sends conn body) recv
  | callerFound {call idx i} : σ.users[idx]? = some i → i.user.addr = addr →
      Moves conn addr σ (getNameFromAddr call idx) .looks (call.called (some i.user.name))
  | callerNext {call idx i} : σ.users[idx]? = some i → i.user.addr ≠ addr →
      Moves conn addr σ (getNameFromAddr call idx) .looks (getNameFromAddr call (idx + 1))
  | callerEnd {call idx} : σ.users[idx]? = none →
      Moves conn addr σ (getNameFromAddr call idx) .looks (call.called none)
  | receiverFound {name msg s idx i} : σ.users[idx]? = some i → i.user.name = name →
      Moves conn addr σ (findUserToSendMsgTo name msg (some s) idx)
        .looks (sendFrom name i.user.conn s msg)
  | receiverFails {name msg idx i} : σ.users[idx]? = some i → i.user.name = name →
      Moves conn addr σ (findUserToSendMsgTo name msg none idx) .looks (raised .typeError)
  | receiverNext {name msg fromName idx i} : σ.users[idx]? = some i → i.user.name ≠ name →
      Moves conn addr σ (findUserToSendMsgTo name msg fromName idx) .looks
        (findUserToSendMsgTo name msg fromName (idx + 1))
  | receiverEnd {name msg fromName idx} : σ.users[idx]? = none →
      Moves conn addr σ (findUserToSendMsgTo name msg fromName idx) .looks
        (reply (Verb.edne ++ ' ' :: name))
  | relays {name dest s msg} : Moves conn addr σ (sendFrom name dest s msg)
      (.sends dest (Verb.fromUser ++ ' ' :: (s ++ ' ' :: msg))) recv
  | confirmedFound {name s idx i} : σ.users[idx]? = some i → i.user.name = name →
      Moves conn addr σ (sendOtToUsr name (some s) idx) .looks (sendOt name s (idx + 1) i.user.conn)
  | confirmedFails {name idx i} : σ.users[idx]? = some i → i.user.name = name →
      Moves conn addr σ (sendOtToUsr name none idx) .looks (raised .typeError)
  | confirmedNext {name fromName idx i} : σ.users[idx]? = some i → i.user.name ≠ name →
      Moves conn addr σ (sendOtToUsr name fromName idx) .looks (sendOtToUsr name fromName (idx + 1))
  | confirmedEnd {name fromName idx} : σ.users[idx]? = none →
      Moves conn addr σ (sendOtToUsr name fromName idx) .looks recv
  | confirms {name s idx dest} : Moves conn addr σ (sendOt name s idx dest)
      (.sends dest (Verb.ot ++ ' ' :: s)) (sendOtToUsr name (some s) idx)
  | leaverFound {idx i} : σ.users[idx]? = some i → i.user.addr = addr →
      Moves conn addr σ (removeUsrByAddr idx) .looks (sendEyb i)
  | leaverNext {idx i} : σ.users[idx]? = some i → i.user.addr ≠ addr →
      Moves conn addr σ (removeUsrByAddr idx) .looks (removeUsrByAddr (idx + 1))
  | leaverEnd {idx} : σ.users[idx]? = none →
      Moves conn addr σ (removeUsrByAddr idx) .looks (raised .attributeError)
  | eyb {toRem} : Moves conn addr σ (sendEyb toRem) (.sends toRem.user.conn Verb.eyb) (close toRem)
  | closes {toRem} : Moves conn addr σ (close toRem) (.closes toRem.user.conn) (remove toRem)
  | removes {toRem} : toRem ∈ σ.users →
      Moves conn addr σ (remove toRem) (.removes toRem) (broadcastUoff toRem.user.name 0)
  | removeFails {toRem} : toRem ∉ σ.users →
      Moves conn addr σ (remove toRem) .looks (raised .valueError)
  | uoffNext {name idx i} : σ.users[idx]? = some i →
      Moves conn addr σ (broadcastUoff name idx) .looks (sendUoff name (idx + 1) i.user.conn)
  | uoffEnd {name idx} : σ.users[idx]? = none →
      Moves conn addr σ (broadcastUoff name idx) .looks recv
  | uoff {name idx dest} : Moves conn addr σ (sendUoff name idx dest)
      (.sends dest (Verb.uoff ++ ' ' :: name)) (broadcastUoff name idx)
  | closesUnknown : Moves conn addr σ closeUnknown (.closes conn) recv
  /-- `send` raises. -/
  | raises {pc pc' dest body} : σ.isOpen dest = false →
      Moves conn addr σ pc (.sends dest body) pc' →
      Moves conn addr σ pc (.sends dest body) (raised .osError)

section Moves

variable {conn : Conn} {addr : Addr} {σ : Shared} {pc pc' : Pc} {a : Act}

/-- A `send` that goes on as the move does, or raises. -/
theorem Moves.of_sending {dest : Conn} {body : Str}
    (h : Moves conn addr σ pc (.sends dest body) pc')
    {x : Act × Pc} (hx : Pc.sending σ dest body pc' = x) : Moves conn addr σ pc x.1 x.2 := by
  subst hx
  by_cases hopen : σ.isOpen dest = true
  · rw [sending, if_pos hopen]
    exact h
  · rw [sending, if_neg hopen]
    exact h.raises (by simpa using hopen)

/-- A loop that halts, or goes on, or is at the end. -/
theorem Moves.of_seeking {idx : ℕ} {halts : Entry → Bool} {found : Entry → Pc} {next exhausted : Pc}
    (hfound : ∀ i, σ.users[idx]? = some i → halts i = true → Moves conn addr σ pc .looks (found i))
    (hnext : ∀ i, σ.users[idx]? = some i → halts i ≠ true → Moves conn addr σ pc .looks next)
    (hend : σ.users[idx]? = none → Moves conn addr σ pc .looks exhausted)
    {x : Act × Pc} (hx : Pc.seeking σ idx halts found next exhausted = x) :
    Moves conn addr σ pc x.1 x.2 := by
  subst hx
  unfold seeking
  cases hat : σ.users[idx]? with
  | none => exact hend hat
  | some i =>
      dsimp only
      split_ifs with hi
      · exact hfound i hat hi
      · exact hnext i hat hi

/-- **What a thread can do** in a step, wherever it stands. -/
theorem moves_of_next (h : pc.next conn addr σ = some (a, pc')) : Moves conn addr σ pc a pc' := by
  cases pc with
  | recv | left | raised => cases h
  | checkUserExists name idx =>
      exact .of_seeking (fun i hi heq => .nameTaken hi (by simpa using heq))
        (fun i hi hne => .nameNext hi (by simpa using hne)) .nameFree (Option.some.inj h)
  | sendMai name => exact Moves.mai.of_sending (Option.some.inj h)
  | sendMotd name => exact Moves.motd.of_sending (Option.some.inj h)
  | append name =>
      cases h
      exact .registers
  | getUsers toRet idx =>
      rw [next] at h
      cases hat : σ.users[idx]? with
      | none =>
          rw [hat] at h
          cases h
          exact .usersEnd hat
      | some usr =>
          rw [hat] at h
          cases h
          exact .usersNext hat
  | reply body => exact Moves.replies.of_sending (Option.some.inj h)
  | getNameFromAddr call idx =>
      exact .of_seeking (fun i hi heq => .callerFound hi (by simpa using heq))
        (fun i hi hne => .callerNext hi (by simpa using hne)) .callerEnd (Option.some.inj h)
  | findUserToSendMsgTo name msg fromName idx =>
      refine .of_seeking (fun i hi heq => ?_)
        (fun i hi hne => .receiverNext hi (by simpa using hne))
        .receiverEnd (Option.some.inj h)
      cases fromName with
      | none => exact .receiverFails hi (by simpa using heq)
      | some s => exact .receiverFound hi (by simpa using heq)
  | sendFrom name dest s msg => exact Moves.relays.of_sending (Option.some.inj h)
  | sendOtToUsr name fromName idx =>
      refine .of_seeking (fun i hi heq => ?_)
        (fun i hi hne => .confirmedNext hi (by simpa using hne))
        .confirmedEnd (Option.some.inj h)
      cases fromName with
      | none => exact .confirmedFails hi (by simpa using heq)
      | some s => exact .confirmedFound hi (by simpa using heq)
  | sendOt name s idx dest => exact Moves.confirms.of_sending (Option.some.inj h)
  | removeUsrByAddr idx =>
      exact .of_seeking (fun i hi heq => .leaverFound hi (by simpa using heq))
        (fun i hi hne => .leaverNext hi (by simpa using hne)) .leaverEnd (Option.some.inj h)
  | sendEyb toRem => exact Moves.eyb.of_sending (Option.some.inj h)
  | close toRem =>
      cases h
      exact .closes
  | remove toRem =>
      rw [next] at h
      split_ifs at h with hmem
      · cases h
        exact .removes hmem
      · cases h
        exact .removeFails hmem
  | broadcastUoff name idx =>
      exact .of_seeking (fun i hi _ => .uoffNext hi) (fun i hi hne => absurd rfl hne) .uoffEnd
        (Option.some.inj h)
  | sendUoff name idx dest => exact Moves.uoff.of_sending (Option.some.inj h)
  | closeUnknown =>
      cases h
      exact .closesUnknown

/-- A step is what the thread does next. -/
theorem next_of_step {room : Conn → Bool} (h : pc.step room conn addr σ = some (a, pc')) :
    pc.next conn addr σ = some (a, pc') := by
  unfold step at h
  split at h
  · rename_i dest body pc₁ heq
    split_ifs at h
    rw [heq, h]
  · exact h

/-- With room everywhere, the thread does what it does next. -/
theorem step_of_room {room : Conn → Bool} (hroom : ∀ c, room c = true) :
    pc.step room conn addr σ = pc.next conn addr σ := by
  unfold step
  split
  · rename_i dest body pc₁ heq
    rw [if_neg (by simp [hroom]), heq]
  · rfl

/-- The thread has left its loop or raised. -/
def Ended : Pc → Prop
  | left | raised _ => True
  | _ => False

/-- A thread that has ended does not move. -/
theorem Moves.not_ended (h : Moves conn addr σ pc a pc') : ¬pc.Ended := by
  induction h with
  | raises _ _ ih => exact ih
  | _ => exact id

end Moves

end Pc

/-! ## Runs -/

/-- The server with its threads. -/
structure Threads where
  shared : Shared
  /-- Where the thread of a connection stands. -/
  pc : Conn → Pc

/-- What happens next. -/
inductive ThreadEvent
  /-- A connection is accepted, and its thread started. -/
  | accepts (conn : Conn) (addr : Addr)
  /-- `recv` returns in the thread of a connection. -/
  | receives (conn : Conn) (data : Bytes)
  /-- The thread of a connection takes its next step. -/
  | advances (conn : Conn)
  /-- A connection can no longer be sent to or received from. -/
  | breaks (conn : Conn)

namespace Threads

/-- The server when it starts listening. -/
def Initial (s : Threads) : Prop :=
  s.shared.users = [] ∧ s.shared.sent = [] ∧ s.shared.accepted = [] ∧ s.shared.deeds = [] ∧
    ∀ c, s.pc c = .recv

/-- A connection is accepted.
Source: `server.py` `listen` (lines 30–33) -/
def accept (s : Threads) (conn : Conn) (addr : Addr) : Threads :=
  { s with shared := { s.shared with
      isOpen := Function.update s.shared.isOpen conn true
      accepted := s.shared.accepted ++ [(conn, addr)] } }

/-- A connection breaks. -/
def sever (s : Threads) (conn : Conn) : Threads :=
  { s with shared := { s.shared with isOpen := Function.update s.shared.isOpen conn false } }

/-- A thread has taken a step. -/
def go (s : Threads) (conn : Conn) (a : Act) (pc : Pc) : Threads :=
  ⟨s.shared.after conn a, Function.update s.pc conn pc⟩

theorem go_pc_self (s : Threads) (conn : Conn) (a : Act) (pc : Pc) :
    (s.go conn a pc).pc conn = pc :=
  Function.update_self ..

theorem go_pc_of_ne {s : Threads} {conn c : Conn} (h : c ≠ conn) (a : Act) (pc : Pc) :
    (s.go conn a pc).pc c = s.pc c :=
  Function.update_of_ne h ..

/-- The steps. -/
inductive Step : Threads → ThreadEvent → Threads → Prop
  | accepts {s conn addr} : (∀ p ∈ s.shared.accepted, p.1 ≠ conn) →
      (∀ p ∈ s.shared.accepted, p.2 = addr → s.shared.isOpen p.1 = false) →
      Step s (.accepts conn addr) (s.accept conn addr)
  | receives {s conn addr data} : (conn, addr) ∈ s.shared.accepted → s.pc conn = .recv →
      Step s (.receives conn data)
        (s.go conn (.receives data) (.received (s.shared.isOpen conn) data))
  | advances {s conn addr a pc} {room : Conn → Bool} : (conn, addr) ∈ s.shared.accepted →
      (s.pc conn).step room conn addr s.shared = some (a, pc) →
        Step s (.advances conn) (s.go conn a pc)
  | breaks {s conn} : Step s (.breaks conn) (s.sever conn)

/-- Connections are accepted from distinct addresses. -/
def DistinctAddress (s : Threads) : ThreadEvent → Prop
  | .accepts _ addr => ∀ p ∈ s.shared.accepted, p.2 ≠ addr
  | _ => True

section Runs

variable {cond : Threads → ThreadEvent → Prop}

/-- Where there is room, a thread does what it does next. -/
theorem Step.of_next {s : Threads} {conn : Conn} {addr : Addr} {a : Act} {pc : Pc}
    (hmem : (conn, addr) ∈ s.shared.accepted)
    (h : (s.pc conn).next conn addr s.shared = some (a, pc)) :
    Step s (.advances conn) (s.go conn a pc) := by
  have hstep : (s.pc conn).step (fun _ => true) conn addr s.shared = some (a, pc) := by
    rw [Pc.step_of_room fun _ => rfl, h]
  exact .advances hmem hstep

/-- A thread that takes a step makes a move. -/
theorem Step.moves {s s' : Threads} {e : ThreadEvent} (h : Step s e s') :
    (∃ conn addr, e = .accepts conn addr ∧ s' = s.accept conn addr ∧
      (∀ p ∈ s.shared.accepted, p.1 ≠ conn) ∧
      ∀ p ∈ s.shared.accepted, p.2 = addr → s.shared.isOpen p.1 = false) ∨
    (∃ conn addr a pc, (conn, addr) ∈ s.shared.accepted ∧ s' = s.go conn a pc ∧
      Pc.Moves conn addr s.shared (s.pc conn) a pc) ∨
    ∃ conn, s' = s.sever conn := by
  cases h with
  | accepts hnew haddr => exact .inl ⟨_, _, rfl, rfl, hnew, haddr⟩
  | @receives conn addr data hmem hrecv =>
      refine .inr (.inl ⟨conn, addr, _, _, hmem, rfl, ?_⟩)
      rw [hrecv]
      exact .receives
  | advances hmem hstep =>
      exact .inr (.inl ⟨_, _, _, _, hmem, rfl, Pc.moves_of_next (Pc.next_of_step hstep)⟩)
  | breaks => exact .inr (.inr ⟨_, rfl⟩)

/-- **Disciplines of the server.** A discipline that every move keeps, and what happens outside of
the threads, is obeyed in every state of a run. -/
theorem obeyed (D : Discipline Conn Pc Shared)
    (hinit : ∀ s : Threads, s.Initial → D.Obeyed s.shared s.pc)
    (haccept : ∀ s conn addr, Reaches Initial cond Step s → D.Obeyed s.shared s.pc →
      (∀ p ∈ s.shared.accepted, p.1 ≠ conn) →
      D.inv (s.accept conn addr).shared ∧ ∀ c, D.rely c s.shared (s.accept conn addr).shared)
    (hmove : ∀ s conn addr a pc, Reaches Initial cond Step s → D.Obeyed s.shared s.pc →
      (conn, addr) ∈ s.shared.accepted → Pc.Moves conn addr s.shared (s.pc conn) a pc →
      D.inv (s.shared.after conn a) ∧ D.knows conn pc (s.shared.after conn a) ∧
        ∀ c, c ≠ conn → D.rely c s.shared (s.shared.after conn a))
    (hsever : ∀ (s : Threads) conn, D.Obeyed s.shared s.pc →
      D.inv (s.sever conn).shared ∧ ∀ c, D.rely c s.shared (s.sever conn).shared)
    {s : Threads} (h : Reaches Initial cond Step s) : D.Obeyed s.shared s.pc := by
  induction h with
  | start hs => exact hinit _ hs
  | @step s s' e hs _ hst ih =>
      rcases hst.moves with ⟨conn, addr, -, rfl, hnew, -⟩ | ⟨conn, addr, a, pc, hmem, rfl, hmoves⟩ |
        ⟨conn, rfl⟩
      · obtain ⟨hinv, hrely⟩ := haccept s conn addr hs ih hnew
        exact ih.outside hinv hrely
      · obtain ⟨hinv, hknows, hrely⟩ := hmove s conn addr a pc hs ih hmem hmoves
        exact ih.turn hinv hknows hrely
      · obtain ⟨hinv, hrely⟩ := hsever s conn ih
        exact ih.outside hinv hrely

end Runs

end Threads

end ME2U.Server
