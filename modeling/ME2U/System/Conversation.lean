import ME2U.Found.Hub
import ME2U.Hw1Client.Talk
import ME2U.Server.Registry
import ME2U.System.Chats
import ME2U.System.Relay
import ME2U.System.UserList

/-!
# A conversation with `hw1_client`

Any number of users are logged in and type lines, and each frame is received as one. `hw1_client`
answers a message with the name of its sender, as the protocol has it, and so the server can hand
the confirmation on: what goes to the server and what comes from there are the items of a `Hub`.

* `Conversation.step`: a user types a line, a handler receives a frame, or a client reads one.
* `Letter`, `requestOf`, `replyOf`: the items as frames.
* `messageTyped`, `messageTo`, `messageFrom`, `shownFrom`: messages in lines, in frames and on the
  terminal.
* `run_handleData_requestOf`, `run_chatIteration_replyOf`, `run_chatIteration_typed`: what is sent
  and printed for each of them.
-/

namespace ME2U.System

open Hw1Client
open Client (Halt ReadResult userHelp userListu userChat msgTo ending_eq)
open Server (Conn Addr World User Sent)

/-! ## The users -/

/-- Users that are logged in: their entries, without duplicates, with names of one word that fit
`CURRENT_USER_NAME`, and that all fit into one `UTSIL`. -/
structure Roster where
  users : List User
  names_nodup : (users.map User.name).Nodup
  conns_nodup : (users.map User.conn).Nodup
  addrs_nodup : (users.map User.addr).Nodup
  names : ∀ u ∈ users, SentName u.name ∧ (encode u.name).length ≤ 20
  listed : (encode (Server.getUsers users)).length ≤ 5000

namespace Roster

variable (P : Roster)

variable {P}

/-- The connection tells the user, -/
theorem eq_of_conn {u v : User} (hu : u ∈ P.users) (hv : v ∈ P.users) (h : u.conn = v.conn) :
    u = v :=
  List.inj_on_of_nodup_map P.conns_nodup hu hv h

/-- and so does the name. -/
theorem eq_of_name {u v : User} (hu : u ∈ P.users) (hv : v ∈ P.users) (h : u.name = v.name) :
    u = v :=
  List.inj_on_of_nodup_map P.names_nodup hu hv h

/-- A user that is logged in. -/
abbrev Member (P : Roster) : Type := {u : User // u ∈ P.users}

/-- The connection of a user. -/
def Member.conn (v : P.Member) : Conn := v.1.conn

/-- The name of a user. -/
def Member.name (v : P.Member) : Str := v.1.name

/-- Members have connections of their own -/
theorem Member.conn_injective : Function.Injective (Member.conn (P := P)) := fun u v h =>
  Subtype.ext (P.eq_of_conn u.2 v.2 h)

/-- and names of their own. -/
theorem Member.name_injective : Function.Injective (Member.name (P := P)) := fun u v h =>
  Subtype.ext (P.eq_of_name u.2 v.2 h)

/-- The search for a name finds the user, -/
theorem find?_name {u : User} (hu : u ∈ P.users) : P.users.find? (·.name == u.name) = some u := by
  cases hfind : P.users.find? (·.name == u.name) with
  | none =>
      have hno := List.find?_eq_none.mp hfind u hu
      simp at hno
  | some v =>
      have hname : v.name = u.name := by simpa using List.find?_some hfind
      rw [eq_of_name (List.mem_of_find?_eq_some hfind) hu hname]

/-- and that for an address the name. -/
theorem getNameFromAddr {u : User} (hu : u ∈ P.users) :
    Server.getNameFromAddr P.users u.addr = some u.name :=
  Server.getNameFromAddr_of_mem P.addrs_nodup hu

end Roster

/-! ## The steps -/

/-- Clients in `regular_chat`, and their handlers. -/
structure Conversation where
  world : World
  chat : Conn → Chat
  /-- Whether the client has ended. -/
  ended : Conn → Bool
  /-- Whether the handler is in its loop. -/
  serving : Conn → Bool
  /-- What the client wrote and the handler has not received. -/
  toServer : Conn → List Bytes
  /-- What was sent to the client and it has not read. -/
  toClient : Conn → List Bytes
  /-- The lines that were typed. -/
  typed : Conn → List Bytes

/-- The steps of a conversation. -/
inductive ConversationEvent
  /-- The user types a line, and the client reads it. -/
  | types (u : User) (line : Bytes)
  /-- The handler of the user receives what the client wrote, and handles it. -/
  | serves (u : User)
  /-- The client reads a frame; what is typed meanwhile is left for the next iteration. -/
  | reads (u : User)

namespace Conversation

/-- After the client of a user has run. -/
def ofClient (s : Conversation) (u : User) (r : Except Halt Bool × Chat) : Conversation :=
  { s with
    chat := Function.update s.chat u.conn r.2
    ended := Function.update s.ended u.conn <| match r.1 with
      | .ok false => false
      | _ => true
    toServer := Function.update s.toServer u.conn
      (s.toServer u.conn ++ (newly (s.chat u.conn).sent r.2.sent).map bytesOf) }

/-- After the handler of a user has handled what it received. -/
def ofServer (s : Conversation) (u : User) (rest : List Bytes)
    (r : Except Server.PyExc Server.LoopCtl × World) : Conversation :=
  { s with
    world := r.2
    serving := Function.update s.serving u.conn <| match r.1 with
      | .ok .again => true
      | _ => false
    toServer := Function.update s.toServer u.conn rest
    toClient := fun c => s.toClient c ++ delivered c (newly s.world.sent r.2.sent) }

/-- One step, where it can be taken. A line has no NUL, and a frame is received whole: 4096 bytes by
the handler, and one less than `MAXLINE` by the client. -/
def step (P : Roster) (slack : ℕ) (s : Conversation) : ConversationEvent → Option Conversation
  | .types u line =>
      if u ∈ P.users ∧ s.ended u.conn = false ∧ (s.chat u.conn).stdineof = false ∧
        line ≠ [] ∧ 0 ∉ line ∧
          line.length < maxline then
        some ({ s with typed := Function.update s.typed u.conn (s.typed u.conn ++ [line]) }.ofClient
          u ((chatIteration slack false true .failed (.data line)).run (s.chat u.conn)))
      else none
  | .serves u =>
      match s.toServer u.conn with
      | [] => none
      | data :: rest =>
          if u ∈ P.users ∧ s.serving u.conn = true ∧ data.length ≤ 4096 then
            some (s.ofServer u rest ((Server.handleData u.conn u.addr data).run s.world))
          else none
  | .reads u =>
      match s.toClient u.conn with
      | [] => none
      | f :: rest =>
          if u ∈ P.users ∧ s.ended u.conn = false ∧ f.length < maxline then
            some ({ s with toClient := Function.update s.toClient u.conn rest }.ofClient u
              ((chatIteration slack true false (.data f) .failed).run (s.chat u.conn)))
          else none

/-- The steps as a relation. -/
def Step (P : Roster) (slack : ℕ) (s : Conversation) (e : ConversationEvent) (s' : Conversation) :
    Prop :=
  s.step P slack e = some s'

/-- Everybody has just logged in. -/
structure Initial (P : Roster) (s : Conversation) : Prop where
  users : s.world.users = P.users
  isOpen : ∀ u ∈ P.users, s.world.isOpen u.conn = true
  chat : ∀ u ∈ P.users, s.chat u.conn = ⟨false, [], []⟩
  ended : ∀ u ∈ P.users, s.ended u.conn = false
  serving : ∀ u ∈ P.users, s.serving u.conn = true
  toServer : ∀ u ∈ P.users, s.toServer u.conn = []
  toClient : ∀ u ∈ P.users, s.toClient u.conn = []
  typed : ∀ u ∈ P.users, s.typed u.conn = []

/-- Nothing is on its way. -/
def Quiet (P : Roster) (s : Conversation) : Prop :=
  ∀ u ∈ P.users, s.toServer u.conn = [] ∧ s.toClient u.conn = []

end Conversation

/-! ## Lines and frames -/

/-- A message that fits into one `recv`, to a name that arrives as one. -/
structure Letter where
  name : Str
  msg : Str
  sentName : SentName name
  cr_notMem : '\r' ∉ msg
  nul_notMem : '\x00' ∉ msg
  fits : (wire (Request.toUser name msg).render).length ≤ 4096

/-- What is shown of a message: its text, and the ending it was sent with. -/
def Letter.text (m : Letter) : Bytes := encode m.msg ++ Client.ending

/-- The user that a message is for. -/
def addressee (P : Roster) (m : Letter) : Option P.Member :=
  match h : P.users.find? (·.name == m.name) with
  | some u => some ⟨u, List.mem_of_find?_eq_some h⟩
  | none => none

/-- The frame that a handler receives. -/
def requestOf {P : Roster} : Upward P.Member Letter → Bytes
  | .letter m => wire (Request.toUser m.name m.msg).render
  | .confirm v => wire (Request.morf v.name).render
  | .ask => wire Request.listu.render

/-- The list of users.
Source: `server.py` `handle_user` (line 69) -/
def utsilOf (users : List User) : Bytes :=
  encode (Server.ending (Verb.utsil ++ ' ' :: Server.getUsers users))

/-- The frame that a client reads. -/
def replyOf {P : Roster} : Downward P.Member Letter → Bytes
  | .letter v m => fromFrame v.name m.msg
  | .confirmed v => otFrame v.name
  | .nobody m => edneOf m.name
  | .answer => utsilOf P.users

section Frames

variable {P : Roster}

/-- A verb, a text and the ending. -/
theorem encode_ending (verb t : Str) :
    encode (Server.ending (verb ++ ' ' :: t)) = encode verb ++ 32 ::
    (encode t ++ Client.ending) := by
  rw [Server.ending, encode_append, encode_append, encode_space_cons, ending_eq,
    List.append_assoc, List.cons_append]

/-- A verb, a name, a message and the ending. -/
theorem encode_ending_msg (verb n t : Str) :
    encode (Server.ending (verb ++ ' ' :: (n ++ ' ' :: t))) =
      encode verb ++ 32 :: (encode n ++ 32 :: (encode t ++ Client.ending)) := by
  rw [encode_ending, encode_append, encode_space_cons, List.append_assoc, List.cons_append]

theorem requestOf_letter (m : Letter) :
    requestOf (.letter m : Upward P.Member Letter) = msgTo ++ 32 ::
    (encode m.name ++ 32 :: m.text) :=
  encode_ending_msg Verb.toUser m.name m.msg

theorem requestOf_confirm (v : P.Member) :
    requestOf (.confirm v : Upward P.Member Letter) = confirmMsgFrom ++ 32 ::
    (encode v.name ++ Client.ending) :=
  encode_ending Verb.morf v.name

theorem requestOf_ask :
    requestOf (.ask : Upward P.Member Letter) = clientListUser ++ Client.ending := rfl

theorem replyOf_letter (v : P.Member) (m : Letter) :
    replyOf (.letter v m) = msgFrom ++ 32 :: (encode v.name ++ 32 :: m.text) :=
  encode_ending_msg Verb.fromUser v.name m.msg

theorem replyOf_confirmed (v : P.Member) :
    replyOf (.confirmed v : Downward P.Member Letter) = confirmMsgTo ++ 32 ::
    (encode v.name ++ Client.ending) :=
  encode_ending Verb.ot v.name

theorem replyOf_nobody (m : Letter) :
    replyOf (.nobody m : Downward P.Member Letter) = noUsr ++ 32 ::
    (encode m.name ++ Client.ending) :=
  encode_ending Verb.edne m.name

theorem replyOf_answer :
    replyOf (.answer : Downward P.Member Letter) =
      serverListUser ++ 32 :: (encode (Server.getUsers P.users) ++ Client.ending) :=
  encode_ending Verb.utsil _

end Frames

/-- What the users type: a message, the two commands that are answered or printed, and lines without
a slash, which are refused. -/
inductive IsTyped : Bytes → Prop
  | chat (m : Letter) : IsTyped (userChat ++ 32 :: (encode m.name ++ 32 :: encode m.msg))
  | listu {t : Bytes} : 0 ∉ t → IsTyped (userListu ++ t)
  | help {t : Bytes} : 0 ∉ t → IsTyped (userHelp ++ t)
  | words {a : UInt8} {t : Bytes} : a ≠ 47 → IsTyped (a :: t)

/-! ## Messages -/

section Messages

variable (n : Str)

/-- The message to that name in a line, with the ending. -/
def messageTyped (line : Bytes) : Option Bytes :=
  (line.dropPrefix? (userChat ++ 32 :: (encode n ++ [32]))).map (· ++ Client.ending)

/-- The message to that name in a frame for the server. -/
def messageTo (f : Bytes) : Option Bytes := f.dropPrefix? (msgTo ++ 32 :: (encode n ++ [32]))

/-- The message from that name in a frame for a client. -/
def messageFrom (f : Bytes) : Option Bytes := f.dropPrefix? (msgFrom ++ 32 :: (encode n ++ [32]))

/-- The message from that name on the terminal. -/
def shownFrom : Output → Option Bytes
  | .text s => s.dropPrefix? (32 :: (encode n ++ [32]))
  | .bytes _ _ => none

end Messages

/-- Whether a line is a message to somebody. -/
def isMessage (line : Bytes) : Bool := userChat.isPrefixOf line

/-- Whether the terminal gets an answer to a message. -/
def isAnswer : Output → Bool
  | .text s => s == sentText || s == noUserText
  | .bytes _ _ => false

/-- What is up to the first space is one. -/
theorem eq_of_append_space {v w t t' : Bytes} (hv : 32 ∉ v) (hw : 32 ∉ w)
    (h : v ++ 32 :: t = w ++ 32 :: t') :
    v = w := by
  have hstop : ∀ {u : Bytes}, 32 ∉ u → ∀ t, (u ++ 32 :: t).takeWhile (· != 32) = u := by
    intro u hu t
    rw [List.takeWhile_append_of_pos fun b hb => by simpa using fun heq : b = 32 => hu (heq ▸ hb)]
    simp
  rw [← hstop hv t, h, hstop hw]

theorem isAnswer_sentText : isAnswer (.text sentText) = true := by simp [isAnswer]

theorem isAnswer_noUserText : isAnswer (.text noUserText) = true := by simp [isAnswer]

/-- A text behind a verb and a name is found under that name only. -/
theorem dropPrefix?_name {p : Bytes} {n w : Str} (hn : ' ' ∉ n) (hw : ' ' ∉ w) (t : Bytes) :
    (p ++ 32 :: (encode w ++ 32 :: t)).dropPrefix? (p ++ 32 :: (encode n ++ [32])) =
      if w = n then some t else none := by
  by_cases h : w = n
  · rw [if_pos h, h, List.dropPrefix?_eq_some_iff]
    exact ⟨_, by simp, beq_self_eq_true _⟩
  · rw [if_neg h]
    cases hdrop : (p ++ 32 :: (encode w ++ 32 :: t)).dropPrefix?
        (p ++ 32 :: (encode n ++ [32])) with
    | none => rfl
    | some s =>
        obtain ⟨q, hq, hbeq⟩ := List.dropPrefix?_eq_some_iff.mp hdrop
        obtain rfl := eq_of_beq hbeq
        rw [List.append_assoc, List.append_cancel_left_eq, List.cons_append, List.cons_inj_right,
          List.append_assoc] at hq
        have hword := eq_of_append_space (mt space_mem_encode.mp hw) (mt space_mem_encode.mp hn) hq
        exact absurd (encode_inj.mp hword) h

/-- What begins with one verb does not begin with another. -/
theorem not_prefix_verb {p v : Bytes} (h : ¬(p <+: v ∨ v <+: p)) (t : Bytes) : ¬p <+: v ++ t :=
  fun hp =>
  h (List.prefix_or_prefix_of_prefix hp (List.prefix_append v t))

/-- No text is found behind another verb. -/
theorem dropPrefix?_verb {p v : Bytes} (h : ¬(p <+: v ∨ v <+: p)) (q t : Bytes) :
    (v ++ t).dropPrefix? (p ++ q) = none := by
  cases hdrop : (v ++ t).dropPrefix? (p ++ q) with
  | none => rfl
  | some s =>
      obtain ⟨q', hq, hbeq⟩ := List.dropPrefix?_eq_some_iff.mp hdrop
      obtain rfl := eq_of_beq hbeq
      rw [List.append_assoc] at hq
      exact absurd ⟨_, hq.symm⟩ (not_prefix_verb h t)

section Observers

variable {P : Roster} (a b : P.Member)

theorem Roster.Member.space_notMem : ' ' ∉ b.name := (P.names b.1 b.2).1.2.1.2.2.1

theorem Letter.space_notMem (m : Letter) : ' ' ∉ m.name := m.sentName.2.1.2.2.1

/-- The addressee is the member with that name. -/
theorem addressee_eq_some_iff {m : Letter} : addressee P m = some b ↔ m.name = b.name := by
  unfold addressee
  split
  · next u h =>
      have hname : u.name = m.name := by simpa using List.find?_some h
      rw [Option.some.injEq]
      constructor
      · rintro rfl
        exact hname.symm
      · intro heq
        exact Roster.Member.name_injective (hname.trans heq)
  · next h =>
      have hno := List.find?_eq_none.mp h b.1 b.2
      simp only [reduceCtorEq, false_iff]
      rintro heq
      simp [heq, Roster.Member.name] at hno

/-- A message in a line. -/
theorem messageTyped_chat (m : Letter) :
    messageTyped b.name (userChat ++ 32 :: (encode m.name ++ 32 :: encode m.msg)) =
      if addressee P m = some b then some m.text else none := by
  unfold messageTyped
  rw [dropPrefix?_name b.space_notMem m.space_notMem]
  simp only [addressee_eq_some_iff]
  split <;> rfl

end Observers

/-! ## Lengths -/

section Lengths

variable {P : Roster}

/-- and a reply into one read. -/
theorem length_replyOf (d : Downward P.Member Letter) : (replyOf d).length < maxline := by
  unfold maxline
  cases d with
  | letter v m =>
      have hname := (P.names v.1 v.2).2
      have hfits := m.fits
      have hverb : msgFrom.length = 4 := rfl
      have hverb' : msgTo.length = 2 := rfl
      change (requestOf (.letter m : Upward P.Member Letter)).length ≤ 4096 at hfits
      rw [requestOf_letter, List.length_append, List.length_cons,
        List.length_append, List.length_cons, hverb'] at hfits
      rw [replyOf_letter, List.length_append, List.length_cons, List.length_append,
        List.length_cons, hverb]
      unfold Roster.Member.name
      omega
  | confirmed v =>
      have hname := (P.names v.1 v.2).2
      have hverb : confirmMsgTo.length = 2 := rfl
      rw [replyOf_confirmed, List.length_append, List.length_cons, List.length_append,
        Client.length_ending, hverb]
      unfold Roster.Member.name
      omega
  | nobody m =>
      have hfits := m.fits
      have hverb : noUsr.length = 4 := rfl
      have hverb' : msgTo.length = 2 := rfl
      change (requestOf (.letter m : Upward P.Member Letter)).length ≤ 4096 at hfits
      rw [requestOf_letter, List.length_append, List.length_cons,
        List.length_append, List.length_cons, hverb'] at hfits
      rw [replyOf_nobody, List.length_append, List.length_cons, List.length_append,
        Client.length_ending, hverb]
      omega
  | answer =>
      have hlisted := P.listed
      have hverb : serverListUser.length = 5 := rfl
      rw [replyOf_answer, List.length_append, List.length_cons, List.length_append,
        Client.length_ending, hverb]
      omega

end Lengths

/-! ## The server -/

/-- **What a handler does** with what its client sent. -/
theorem run_handleData_requestOf {P : Roster} {w : World} (husers : w.users = P.users)
    (hopen : ∀ v : P.Member, w.isOpen v.conn = true) (v : P.Member) (x : Upward P.Member Letter) :
    (Server.handleData v.conn v.1.addr (requestOf x)).run w =
      (.ok .again,
        w.logged (x.handed (addressee P) v).1.conn (replyOf (x.handed (addressee P) v).2)) := by
  have hname : Server.getNameFromAddr w.users v.1.addr = some v.name := by
    rw [husers]
    exact P.getNameFromAddr v.2
  have hfind : ∀ u : P.Member, w.users.find? (·.name == u.name) = some u.1 := by
    intro u
    rw [husers]
    exact P.find?_name u.2
  cases x with
  | letter m =>
      cases hto : addressee P m with
      | some u =>
          have hmatch : w.users.find? (·.name == m.name) = some u.1 := by
            rw [(addressee_eq_some_iff u).mp hto]
            exact hfind u
          rw [Upward.handed_of_some hto]
          exact run_handleData_toUser_of_mem m.sentName m.cr_notMem hname hmatch (hopen u)
      | none =>
          have hnobody : w.users.find? (·.name == m.name) = none := by
            rw [husers]
            unfold addressee at hto
            split at hto
            · cases hto
            · next h => exact h
          rw [Upward.handed_of_none hto]
          exact run_handleData_toUser_of_notMem m.sentName m.cr_notMem hnobody (hopen v)
  | confirm u =>
      have hnd : (w.users.map User.name).Nodup := by
        rw [husers]
        exact P.names_nodup
      have hrun := Server.run_sendOtToUsr_of_find hnd (hfind u) v.name w
      have hcr : (Request.morf u.name).CRFree := (P.names u.1 u.2).1.2.2
      have hok : w.isOpen u.1.conn = true := hopen u
      simp only [if_pos hok] at hrun
      rw [requestOf, Server.handleData_wire v.conn v.1.addr hcr, Server.dispatch_morf,
        Eff.run_get_bind, hname, Eff.run_bind_ok hrun]
      rfl
  | ask =>
      rw [requestOf, Server.handleData_wire v.conn v.1.addr (q := .listu) trivial,
        Server.dispatch_listu, Eff.run_get_bind, Server.run_send_bind_of_isOpen (hopen v), husers]
      rfl

/-! ## The clients -/

/-- Something that is printed and is no message and no answer. -/
def Silent (o : Output) : Prop := (∀ n, shownFrom n o = none) ∧ isAnswer o = false

/-- A text that begins with no space, or holds no other. -/
theorem silent_text {s : Bytes} (hspace : s.head? = some 32 → 32 ∉ s.tail) (hsent : s ≠ sentText)
    (hno : s ≠ noUserText) : Silent (.text s) := by
  constructor
  · intro n
    cases hdrop : s.dropPrefix? (32 :: (encode n ++ [32])) with
    | none => exact hdrop
    | some t =>
        obtain ⟨q, rfl, hbeq⟩ := List.dropPrefix?_eq_some_iff.mp hdrop
        obtain rfl := eq_of_beq hbeq
        exact absurd (by simp) (hspace rfl)
  · rw [isAnswer, beq_eq_false_iff_ne.mpr hsent, beq_eq_false_iff_ne.mpr hno]
    rfl

/-- No letter is shown in it, -/
theorem filterMap_of_silent {outs : List Output} (h : ∀ o ∈ outs, Silent o) (n : Str) :
    outs.filterMap (shownFrom n) = [] :=
  List.filterMap_eq_nil_iff.mpr fun o ho => (h o ho).1 n

/-- and no answer. -/
theorem countP_of_silent {outs : List Output} (h : ∀ o ∈ outs, Silent o) :
    outs.countP isAnswer = 0 :=
  List.countP_eq_zero.mpr fun o ho => by simp [(h o ho).2]

/-- In an iteration that sends `xs` and prints `outs`, the client does nothing else. -/
def Does (c : Chat) (r : Except Halt Bool × Chat) (xs : List Bytes) (outs : List Output) : Prop :=
  ∃ sent, sent.map bytesOf = xs ∧
    r = (.ok false, { c with sent := c.sent ++ sent, printed := c.printed ++ outs })

section Clients

variable {P : Roster} {slack : ℕ} {c : Chat}

/-- A name, and the ending, behind a space has no NUL. -/
theorem zero_notMem_name {n : Str} (hn : SentName n) : 0 ∉ (32 : UInt8) ::
    (encode n ++ Client.ending) := by
  have h0 : 0 ∉ encode n := mt zero_mem_encode.mp hn.2.1.1
  simp [h0]
  decide

/-- A list of users behind a space has no NUL. -/
theorem zero_notMem_users : 0 ∉ (32 : UInt8) ::
    (encode (Server.getUsers P.users) ++ Client.ending) := by
  have hfree : '\x00' ∉ Server.getUsers P.users :=
    notMem_getUsers (by decide) fun u hu => (P.names u hu).1.2.1.1
  have h0 : 0 ∉ encode (Server.getUsers P.users) := mt zero_mem_encode.mp hfree
  simp [h0]
  decide

/-- What is printed of a list is silent. -/
theorem silent_of_mem_tokens (t : Bytes) :
    ∀ o ∈ (strtok 32 t).flatMap fun w => [Output.text w, .text [10]], Silent o := by
  intro o ho
  obtain ⟨w, hw, ho⟩ := List.mem_flatMap.mp ho
  have hspace : 32 ∉ w := notMem_of_mem_strtokFrom List.not_mem_nil hw
  rw [List.mem_cons, List.mem_singleton] at ho
  obtain rfl | rfl := ho
  · refine silent_text (fun _ hmem => hspace (List.mem_of_mem_tail hmem)) ?_ ?_
    · rintro rfl
      exact absurd hspace (by decide)
    · rintro rfl
      exact absurd hspace (by decide)
  · exact silent_text (by decide) (by decide) (by decide)

/-- A message on the terminal. -/
theorem shownFrom_text (a v : P.Member) (m : Letter) :
    shownFrom a.name (.text (32 :: (encode v.name ++ 32 :: m.text))) = if v =
      a then some m.text else none := by
  have hdrop := dropPrefix?_name (p := []) a.space_notMem v.space_notMem m.text
  rw [List.nil_append, List.nil_append] at hdrop
  rw [shownFrom, hdrop]
  simp only [Roster.Member.name_injective.eq_iff]

/-- **What a client does** with a frame of the server. -/
theorem does_replyOf (hslack : slack ≠ 0) (hopen : c.stdineof = false)
    (d : Downward P.Member Letter) (line : ReadResult) :
    ∃ outs, Does c ((chatIteration slack true false (.data (replyOf d)) line).run c)
    (d.reply.map requestOf) outs ∧
      (∀ a : P.Member, outs.filterMap (shownFrom a.name) =
        ((d.letterFrom a).map Letter.text).toList) ∧
      outs.countP isAnswer = d.answers := by
  have hlen := length_replyOf d
  have hbehind : ∀ verb : Bytes, 0 ∉ verb → ∀ {t : Bytes}, 0 ∉ t → 0 ∉ verb ++ t := by
    intro verb hverb t ht
    rw [List.mem_append, not_or]
    exact ⟨hverb, ht⟩
  cases d with
  | letter v m =>
      rw [replyOf_letter] at hlen ⊢
      have hname := (P.names v.1 v.2).1
      have hne : encode v.name ≠ [] := mt encode_eq_nil.mp hname.1
      have hword : 0 ∉ encode v.name := mt zero_mem_encode.mp hname.2.1.1
      have hmsg : 0 ∉ encode m.msg := mt zero_mem_encode.mp m.nul_notMem
      have h0 : 0 ∉ msgFrom ++ 32 :: (encode v.name ++ 32 :: m.text) := by
        unfold Letter.text
        simp [hword, hmsg]
        decide
      refine ⟨[.text (32 :: (encode v.name ++ 32 :: m.text))], ?_, fun a => ?_, ?_⟩
      · obtain ⟨x, hx, hrun⟩ := run_chatIteration_from hslack c hopen false line hne
          (mt space_mem_encode.mp v.space_notMem) h0 hlen
        refine ⟨[x], ?_, hrun⟩
        rw [List.map_singleton, hx, Downward.reply, List.map_singleton, requestOf_confirm]
      · rw [List.filterMap_cons, List.filterMap_nil, shownFrom_text, Downward.letterFrom]
        by_cases hv : v = a <;> simp [hv]
      · have hno : ∀ s : Bytes, s.head? ≠ some 32 →
            (32 :: (encode v.name ++ 32 :: m.text) == s) = false := by
          intro s hs
          refine beq_eq_false_iff_ne.mpr ?_
          rintro rfl
          exact hs rfl
        rw [List.countP_singleton, isAnswer, hno _ (by decide), hno _ (by decide)]
        rfl
  | confirmed v =>
      rw [replyOf_confirmed] at hlen ⊢
      have h0 := hbehind confirmMsgTo (by decide) (zero_notMem_name (P.names v.1 v.2).1)
      refine ⟨[.text sentText], ⟨[], rfl, ?_⟩, fun a => rfl, ?_⟩
      · rw [List.append_nil]
        exact run_chatIteration_ot c false line h0 hlen
      · rw [List.countP_singleton, isAnswer_sentText]
        rfl
  | nobody m =>
      rw [replyOf_nobody] at hlen ⊢
      have h0 := hbehind noUsr (by decide) (zero_notMem_name m.sentName)
      obtain ⟨p, n, hrun⟩ := @run_chatIteration_edne slack c false line _ h0 hlen
      have hexists : Silent (.text existsText) := silent_text (by decide) (by decide) (by decide)
      refine ⟨[.text noUserText, .bytes p n, .text existsText], ⟨[], rfl, ?_⟩, fun a => ?_, ?_⟩
      · rw [List.append_nil]
        exact hrun
      · have hlast := hexists.1 a.name
        simp only [List.filterMap_cons, hlast]
        rfl
      · rw [List.countP_cons, List.countP_cons, List.countP_singleton, hexists.2,
          isAnswer_noUserText]
        rfl
  | answer =>
      rw [replyOf_answer] at hlen ⊢
      have h0 := hbehind serverListUser (by decide) (zero_notMem_users (P := P))
      have hsilent :=
        silent_of_mem_tokens (32 :: (encode (Server.getUsers P.users) ++ Client.ending))
      refine ⟨_, ⟨[], rfl, ?_⟩, fun a => filterMap_of_silent hsilent a.name,
        countP_of_silent hsilent⟩
      rw [List.append_nil]
      exact run_chatIteration_utsil c false line h0 hlen

/-- **What a client does** with a line. -/
theorem does_typed (hslack : 4 ≤ slack) (hopen : c.stdineof = false) {line : Bytes}
    (h : IsTyped line) (h0 : 0 ∉ line) (hlen : line.length < maxline) (r : ReadResult) :
    ∃ (xs : List (Upward P.Member Letter)) (outs : List Output),
      Does c ((chatIteration slack false true r (.data line)).run c) (xs.map requestOf) outs ∧
      (∀ o ∈ outs, Silent o) ∧
      (∀ b : P.Member, (messageTyped b.name line).toList =
        (xs.filterMap (Upward.letterTo (addressee P) b)).map Letter.text) ∧
      (if isMessage line then 1 else 0) = (xs.map Upward.letters).sum ∧
      ((∃ m, xs = [.letter m]) ∨ xs = [.ask] ∨ xs = []) := by
  have hother : ∀ {v : Bytes}, ¬(userChat <+: v ∨ v <+: userChat) → ∀ t,
    isMessage (v ++ t) = false ∧
      ∀ n, messageTyped n (v ++ t) = none := by
    intro v hv t
    refine ⟨?_, fun n => ?_⟩
    · unfold isMessage
      rw [Bool.eq_false_iff, Ne, List.isPrefixOf_iff_prefix]
      exact not_prefix_verb hv t
    · unfold messageTyped
      rw [dropPrefix?_verb hv]
      rfl
  cases h with
  | chat m =>
      obtain ⟨x, hx, hrun⟩ := run_chatIteration_chat c r (show slack ≠ 0 by omega) hopen
        (fun hmem => h0 (List.mem_append_right _ hmem)) hlen
      refine ⟨[.letter m], [],
        ⟨[x], ?_, by rw [hrun, List.append_nil]⟩, by simp, fun b => ?_, ?_, .inl ⟨m, rfl⟩⟩
      · rw [List.map_singleton, List.map_singleton, hx, requestOf_letter, Letter.text]
        simp only [List.append_assoc, List.cons_append]
      · rw [messageTyped_chat, List.filterMap_cons, Upward.letterTo]
        by_cases hb : addressee P m = some b <;> simp [hb]
      · have hmessage : isMessage (userChat ++ 32 :: (encode m.name ++ 32 :: encode m.msg)) =
            true :=
          List.isPrefixOf_iff_prefix.mpr (List.prefix_append _ _)
        rw [hmessage]
        rfl
  | listu ht =>
      obtain ⟨x, hx, hrun⟩ := run_chatIteration_listu c r hslack hopen ht hlen
      obtain ⟨hmessage, hnone⟩ := hother (v := userListu) (by decide) _
      refine ⟨[.ask], [],
        ⟨[x], ?_, by rw [hrun, List.append_nil]⟩, by simp, fun b => ?_, ?_, .inr (.inl rfl)⟩
      · rw [List.map_singleton, List.map_singleton, hx, requestOf_ask]
      · rw [hnone]
        rfl
      · rw [hmessage]
        rfl
  | help ht =>
      have hrun := @run_chatIteration_help slack c r _ ht hlen
      obtain ⟨hmessage, hnone⟩ := hother (v := userHelp) (by decide) _
      have hhead : Client.helpString.head? = some 10 := by
        obtain ⟨s, hs⟩ := exists_helpString
        rw [hs]
        rfl
      have hsilent : Silent (.text Client.helpString) := by
        refine silent_text (fun heq => ?_) (fun heq => ?_) (fun heq => ?_)
        · rw [hhead] at heq
          cases heq
        · rw [heq] at hhead
          cases hhead
        · rw [heq] at hhead
          cases hhead
      refine ⟨[], [.text Client.helpString],
        ⟨[], rfl, by rw [hrun, List.append_nil]⟩, by
        simpa using hsilent, fun b => ?_, ?_, .inr (.inr rfl)⟩
      · rw [hnone]
        rfl
      · rw [hmessage]
        rfl
  | @words a t ha =>
      have hrun := @run_chatIteration_words slack c r _ _ ha h0 hlen
      have hslash : userChat = 47 :: userChat.tail := rfl
      have hno : ¬(userChat <+: [a] ∨ [a] <+: userChat) := by
        rw [hslash, List.cons_prefix_cons, List.cons_prefix_cons]
        exact fun hor => ha (hor.elim (fun h => h.1.symm) fun h => h.1)
      obtain ⟨hmessage, hnone⟩ := hother hno t
      rw [List.singleton_append] at hmessage hnone
      have hsilent : ∀ o ∈ [Output.text cErrors, .text formatText, .text cDefault], Silent o := by
        simp only [List.forall_mem_cons]
        exact ⟨silent_text (by decide) (by decide) (by decide),
          silent_text (by decide) (by decide) (by decide),
          silent_text (by decide) (by decide) (by decide), by simp⟩
      refine ⟨[], _, ⟨[], rfl, by rw [hrun, List.append_nil]⟩, hsilent, fun b => ?_,
        ?_, .inr (.inr rfl)⟩
      · rw [hnone]
        rfl
      · rw [hmessage]
        rfl

end Clients

end ME2U.System
