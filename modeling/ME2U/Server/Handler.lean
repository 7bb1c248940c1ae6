import ME2U.Server.State

/-!
# The handler of a connection

`handle_user` of `server.py` and the functions it calls. `dispatch` is what is done with one
request string, `handleData` with one chunk of received bytes, and `handleUser` is the loop over
what `recv` returns, with whatever the other handler threads do to the shared state in between.
-/

namespace ME2U.Server

/-! ## Strings -/

/-- The two uses of `ending`. -/
inductive ToDo
  | add
  | remove
  deriving DecidableEq

/-- Add the terminating sequence, or delete every occurrence of it.
Source: `server.py` `ending` (lines 6–11) -/
def ending (string : Str) (toDo : ToDo := .add) : Str :=
  match toDo with
  | .add => string ++ terminatingSequence
  | .remove => deleteAll terminatingSequence string

/-- `string.split(' ', maxsplit=1)` unpacked into two names: it raises where there is no space.
Source: `server.py` line 72 -/
def splitOnce (string : Str) : Py (Str × Str) :=
  match string.dropWhile (· ≠ ' ') with
  | [] => Eff.stop .valueError
  | _ :: msg => pure (string.takeWhile (· ≠ ' '), msg)

/-- The text of an optional name, which raises when it is concatenated while `None`. -/
def nameText (name : Option Str) : Py Str :=
  match name with
  | none => Eff.stop .typeError
  | some s => pure s

/-! ## The registry -/

/-- Source: `server.py` `check_user_exists` (lines 135–139) -/
def checkUserExists (users : List User) (name : Str) : Bool := users.any fun x => x.name == name

/-- Source: `server.py` `get_name_from_addr` (lines 109–113) -/
def getNameFromAddr : List User → Addr → Option Str
  | [], _ => none
  | i :: users, addr => if i.addr = addr then some i.name else getNameFromAddr users addr

/-- Source: `server.py` `get_users` (lines 124–131) -/
def getUsers (users : List User) : Str := users.foldl (fun toRet usr => toRet ++ ' ' :: usr.name) []

/-- Source: `server.py` `find_user_to_send_msg_to` (lines 115–121) -/
def findUserToSendMsgTo : List User → Str → Str → Option Str → Py Bool
  | [], _, _, _ => pure false
  | i :: users, name, msg, fromName =>
      if i.name = name then do
        let s ← nameText fromName
        send i.conn (encode (ending (Verb.fromUser ++ ' ' :: (s ++ ' ' :: msg))))
        pure true
      else findUserToSendMsgTo users name msg fromName

/-- Source: `server.py` `send_ot_to_usr` (lines 86–90) -/
def sendOtToUsr : List User → Str → Option Str → Py Unit
  | [], _, _ => pure ()
  | i :: users, name, fromName =>
      if i.name = name then do
        let s ← nameText fromName
        send i.conn (encode (ending (Verb.ot ++ ' ' :: s)))
        sendOtToUsr users name fromName
      else sendOtToUsr users name fromName

/-- The broadcast loop over the users left.
Source: `server.py` `remove_usr_by_addr` (lines 104–106) -/
def broadcastUoff : List User → Str → Py Unit
  | [], _ => pure ()
  | i :: users, name => do
      send i.conn (encode (ending (Verb.uoff ++ ' ' :: name)))
      broadcastUoff users name

/-- Source: `server.py` `remove_usr_by_addr` (lines 92–106) -/
def removeUsrByAddr (addr : Addr) : Py Unit := do
  let w ← Eff.get
  match w.users.find? fun i => i.addr == addr with
  | none => Eff.stop .attributeError
  | some toRem => do
      send toRem.conn (encode (ending Verb.eyb))
      close toRem.conn
      Eff.modify fun w => { w with users := w.users.erase toRem }
      let w ← Eff.get
      broadcastUoff w.users toRem.name

/-! ## One request -/

/-- Whether the loop of `handle_user` goes on after a request. -/
inductive LoopCtl
  | again
  | leave
  deriving DecidableEq

/-- The message of the day. Source: `server.py` line 64 -/
def motd : Str := ['H', 'e', 'l', 'l', 'o', ' ', 'H', 'u', 'm', 'a', 'n', ' ']

/-- What is done with one request string.
Source: `server.py` `handle_user` (lines 53–83) -/
def dispatch (conn : Conn) (addr : Addr) (newStr : Str) : Py LoopCtl :=
  if newStr = Verb.me2u then do
    send conn (encode (ending Verb.u2em))
    pure .again
  else if newStr.take 3 = Verb.iam then do
    let w ← Eff.get
    if checkUserExists w.users (newStr.drop 4) then
      -- `ETAKEN` is printed, not sent
      pure .leave
    else do
      send conn (encode (ending Verb.mai))
      send conn (encode (ending (Verb.motd ++ ' ' :: motd)))
      Eff.modify fun w => { w with users := w.users ++ [⟨newStr.drop 4, conn, addr⟩] }
      pure .again
  else if newStr = Verb.listu then do
    let w ← Eff.get
    send conn (encode (ending (Verb.utsil ++ ' ' :: getUsers w.users)))
    pure .again
  else if newStr.take 2 = Verb.toUser then do
    let (name, msg) ← splitOnce (newStr.drop 3)
    let w ← Eff.get
    let found ← findUserToSendMsgTo w.users name msg (getNameFromAddr w.users addr)
    if found then pure .again
    else do
      send conn (encode (ending (Verb.edne ++ ' ' :: name)))
      pure .again
  else if newStr.take 4 = Verb.morf then do
    let w ← Eff.get
    sendOtToUsr w.users (newStr.drop 5) (getNameFromAddr w.users addr)
    pure .again
  else if newStr = Verb.bye then do
    removeUsrByAddr addr
    pure .again
  else do
    close conn
    pure .again

/-- The request string of the bytes of one `recv`, `none` where they are not UTF-8.
Source: `server.py` `handle_user` (line 51) -/
def requestString (data : Bytes) : Option Str := (decode data).map fun s => ending s .remove

/-- Bytes that decode give a request string. -/
theorem requestString_encode (s : Str) : requestString (encode s) = some (ending s .remove) := by
  unfold requestString
  rw [decode_encode, Option.map_some]

/-- What is done with the bytes of one `recv`.
Source: `server.py` `handle_user` (lines 51–83) -/
def handleData (conn : Conn) (addr : Addr) (data : Bytes) : Py LoopCtl :=
  match requestString data with
  | none => Eff.stop .unicodeDecodeError
  | some newStr => dispatch conn addr newStr

/-! ## What a request can raise -/

section Raises

/-- Only the decoding of the received bytes raises a decoding error. -/
private def NoDecodeError : PyExc → Prop := (· ≠ .unicodeDecodeError)

private theorem nameText_stopsOnly (name : Option Str) :
    Eff.StopsOnly NoDecodeError (nameText name) := by
  cases name with
  | none => exact .stop (by simp [NoDecodeError])
  | some s => exact .pure s

private theorem send_stopsOnly (c : Conn) (f : Bytes) :
    Eff.StopsOnly NoDecodeError (send c f) := by
  refine .get_bind fun w => .bind (.modify _) fun _ => .ite (.pure ()) (.stop ?_)
  simp [NoDecodeError]

private theorem splitOnce_stopsOnly (s : Str) : Eff.StopsOnly NoDecodeError (splitOnce s) := by
  rw [splitOnce]
  split
  · exact .stop (by simp [NoDecodeError])
  · exact .pure _

private theorem findUserToSendMsgTo_stopsOnly (users : List User) (name msg : Str)
    (fromName : Option Str) :
    Eff.StopsOnly NoDecodeError (findUserToSendMsgTo users name msg fromName) := by
  induction users with
  | nil => exact .pure _
  | cons i users ih =>
      refine .ite (.bind (nameText_stopsOnly _) fun s => ?_) ih
      exact .bind (send_stopsOnly _ _) fun _ => .pure _

private theorem sendOtToUsr_stopsOnly (users : List User) (name : Str) (fromName : Option Str) :
    Eff.StopsOnly NoDecodeError (sendOtToUsr users name fromName) := by
  induction users with
  | nil => exact .pure _
  | cons i users ih =>
      refine .ite (.bind (nameText_stopsOnly _) fun s => ?_) ih
      exact .bind (send_stopsOnly _ _) fun _ => ih

private theorem broadcastUoff_stopsOnly (users : List User) (name : Str) :
    Eff.StopsOnly NoDecodeError (broadcastUoff users name) := by
  induction users with
  | nil => exact .pure _
  | cons i users ih => exact .bind (send_stopsOnly _ _) fun _ => ih

private theorem removeUsrByAddr_stopsOnly (addr : Addr) :
    Eff.StopsOnly NoDecodeError (removeUsrByAddr addr) := by
  refine .get_bind fun w => ?_
  split
  · exact .stop (by simp [NoDecodeError])
  · refine .bind (send_stopsOnly _ _) fun _ => .bind (.modify _) fun _ =>
      .bind (.modify _) fun _ => ?_
    exact .get_bind fun w => broadcastUoff_stopsOnly _ _

/-- Handling a request string raises no decoding error. -/
theorem run_dispatch_ne_unicodeDecodeError (conn : Conn) (addr : Addr) (newStr : Str) (w : World) :
    ((dispatch conn addr newStr).run w).1 ≠ .error .unicodeDecodeError := by
  have hall : Eff.StopsOnly NoDecodeError (dispatch conn addr newStr) := by
    refine .ite ?_ (.ite ?_ (.ite ?_ (.ite ?_ (.ite ?_ (.ite ?_ ?_)))))
    · exact .bind (send_stopsOnly _ _) fun _ => .pure _
    · refine .get_bind fun w => .ite (.pure _) (.bind (send_stopsOnly _ _) fun _ => ?_)
      exact .bind (send_stopsOnly _ _) fun _ => .bind (.modify _) fun _ => .pure _
    · exact .get_bind fun w => .bind (send_stopsOnly _ _) fun _ => .pure _
    · refine .bind (splitOnce_stopsOnly _) fun nm => .get_bind fun w => ?_
      refine .bind (findUserToSendMsgTo_stopsOnly _ _ _ _) fun found => .ite (.pure _) ?_
      exact .bind (send_stopsOnly _ _) fun _ => .pure _
    · exact .get_bind fun w => .bind (sendOtToUsr_stopsOnly _ _ _) fun _ => .pure _
    · exact .bind (removeUsrByAddr_stopsOnly _) fun _ => .pure _
    · exact .bind (.modify _) fun _ => .pure _
  exact fun h => hall w _ h rfl

end Raises

/-! ## The loop -/

/-- One turn of the loop: what the other handler threads do to the shared state while this one
waits in `recv`, and then the bytes `recv` returns. -/
structure Received where
  /-- The interference of the other threads. -/
  others : World → World
  /-- The bytes received, empty at the end of the stream. -/
  data : Bytes

/-- How far a handler has got. -/
inductive Stop
  /-- It waits for more bytes. -/
  | waiting
  /-- It left its loop, at the end of the stream or after a taken name. -/
  | left
  /-- It was ended by an exception. -/
  | raised (e : PyExc)
  deriving DecidableEq

/-- A run of a handler. -/
structure HandlerRun where
  /-- The request strings dispatched on, oldest first. -/
  dispatched : List Str
  /-- Where it stands. -/
  stop : Stop
  /-- The shared state at that point. -/
  world : World

/-- The loop of a handler thread over what it receives.
Source: `server.py` `handle_user` (lines 46–83) -/
def handleUser (conn : Conn) (addr : Addr) : World → List Received → HandlerRun
  | w, [] => ⟨[], .waiting, w⟩
  | w, r :: rs =>
      if (r.others w).isOpen conn = false then ⟨[], .raised .osError, r.others w⟩
      else if r.data = [] then ⟨[], .left, r.others w⟩
      else
        match (handleData conn addr r.data).run (r.others w) with
        | (.ok .again, w') =>
            let rest := handleUser conn addr w' rs
            ⟨(requestString r.data).toList ++ rest.dispatched, rest.stop, rest.world⟩
        | (.ok .leave, w') => ⟨(requestString r.data).toList, .left, w'⟩
        | (.error e, w') => ⟨(requestString r.data).toList, .raised e, w'⟩

end ME2U.Server
