import ME2U.Client.Dispatch
import ME2U.Client.Errors
import ME2U.Found.Runs
import ME2U.System.Attribution
import ME2U.System.Link
import ME2U.System.UserList

/-!
# Two users that talk

Two users that are logged in type lines, and each frame is received as one. What their clients write
is `TO`, `MORF` and `LISTU` frames, as long as the server sends them nothing but messages, `EDNE`
and the list of users. The list may have names with a NUL in them; the client takes its frame for
the beginning of one then.

* `Chats.step`: a user types a line, a handler receives a frame, or a client reads one.
* `Confirmed`: the confirmations are as the protocol has them.
* `follows_chatInput`, `follows_chatRead`: what a client writes in a step.
* `Pending`: what the client may have of a frame.
-/

namespace ME2U.System

open Client
open Server (Conn Addr World User Sent)

/-! ## The two users -/

/-- The two users. -/
inductive Side
  | a
  | b
  deriving DecidableEq

/-- The other one. -/
def Side.other : Side → Side
  | .a => .b
  | .b => .a

/-- Two users in a registry without duplicates, whose names have no spaces or control characters. -/
structure Pair where
  name : Side → Str
  conn : Side → Conn
  addr : Side → Addr
  users : List User
  entry_mem : ∀ x, ⟨name x, conn x, addr x⟩ ∈ users
  names_nodup : (users.map User.name).Nodup
  conns_nodup : (users.map User.conn).Nodup
  addrs_nodup : (users.map User.addr).Nodup
  name_ne : name .a ≠ name .b
  name_ne_nil : ∀ x, name x ≠ []
  printable : ∀ x, ∀ c ∈ name x, 32 < c.toNat ∧ c.toNat ≠ 127

namespace Pair

variable (P : Pair)

/-- The entry of a user. -/
def entry (x : Side) : User := ⟨P.name x, P.conn x, P.addr x⟩

/-- Neither white space nor a control character is in a name. -/
theorem notMem_name (x : Side) {c : Char} (hc : c.toNat ≤ 32) : c ∉ P.name x :=
  fun hmem => absurd (P.printable x c hmem).1 (Nat.not_lt.mpr hc)

/-- The names of the two sides are different. -/
theorem name_inj {x y : Side} (h : P.name x = P.name y) : x = y := by
  cases x <;> cases y
  · rfl
  · exact absurd h P.name_ne
  · exact absurd h.symm P.name_ne
  · rfl

/-- The connection tells the entry, -/
theorem eq_entry_of_conn {x : Side} {u : User} (hu : u ∈ P.users) (h : u.conn = P.conn x) :
    u = P.entry x :=
  List.inj_on_of_nodup_map P.conns_nodup hu (P.entry_mem x) h

/-- and so does the name. -/
theorem eq_entry_of_name {x : Side} {u : User} (hu : u ∈ P.users) (h : u.name = P.name x) :
    u = P.entry x :=
  List.inj_on_of_nodup_map P.names_nodup hu (P.entry_mem x) h

/-- The connections of the two sides are different. -/
theorem conn_inj {x y : Side} (h : P.conn x = P.conn y) : x = y :=
  P.name_inj (congrArg User.name (P.eq_entry_of_conn (P.entry_mem x) h))

/-- The search for a name finds its side, -/
theorem find?_name (x : Side) : P.users.find? (·.name == P.name x) = some (P.entry x) := by
  cases hfind : P.users.find? (·.name == P.name x) with
  | none =>
      have hno := List.find?_eq_none.mp hfind _ (P.entry_mem x)
      simp at hno
  | some u =>
      have hname : u.name = P.name x := by simpa using List.find?_some hfind
      rw [P.eq_entry_of_name (List.mem_of_find?_eq_some hfind) hname]

/-- and that for an address its name. -/
theorem getNameFromAddr_addr (x : Side) :
    Server.getNameFromAddr P.users (P.addr x) = some (P.name x) :=
  Server.getNameFromAddr_of_mem P.addrs_nodup (P.entry_mem x)

end Pair

/-! ## The steps -/

/-- What the server did, in order. -/
inductive Happening
  /-- It received a request string from a user, or bytes that are not UTF-8. -/
  | received (x : Side) (newStr : Option Str)
  /-- It passed bytes to `send`. -/
  | sent (s : Sent)

/-- Two clients in `regular_chat`, and their handlers. -/
structure Chats where
  world : World
  client : Side → Process
  /-- Whether the client has ended. -/
  halted : Side → Bool
  /-- Whether the handler is in its loop. -/
  serving : Side → Bool
  /-- What the client wrote and the handler has not received. -/
  toServer : Side → List Bytes
  /-- What was sent to the client and it has not read. -/
  toClient : Side → List Bytes
  /-- What the server did so far. -/
  history : List Happening

/-- The steps of the two. -/
inductive ChatEvent
  /-- The user types a line. -/
  | input (x : Side) (line : Bytes)
  /-- The handler of the user receives what the client wrote, and handles it. -/
  | serve (x : Side)
  /-- The client reads a frame. -/
  | deliver (x : Side)

namespace Chats

/-- After the client of a user has run. -/
def ofClient (s : Chats) (x : Side) (r : Except Halt Next × Process) : Chats :=
  { s with
    client := Function.update s.client x r.2
    halted := Function.update s.halted x <| match r.1 with
      | .ok .returned => true
      | .ok _ => false
      | .error _ => true
    toServer := Function.update s.toServer x
      (s.toServer x ++ sockWrites (newly (s.client x).wrote r.2.wrote)) }

/-- After the handler of a user has handled `data`. -/
def ofServer (P : Pair) (s : Chats) (x : Side) (data : Bytes) (rest : List Bytes)
    (r : Except Server.PyExc Server.LoopCtl × World) : Chats :=
  { s with
    world := r.2
    serving := Function.update s.serving x <| match r.1 with
      | .ok .again => true
      | _ => false
    toServer := Function.update s.toServer x rest
    toClient := fun y => s.toClient y ++ delivered (P.conn y) (newly s.world.sent r.2.sent)
    history := s.history ++
      .received x (Server.requestString data) :: (newly s.world.sent r.2.sent).map .sent }

/-- One step, where it can be taken. A line has no carriage return and no NUL, and is not `/logout`;
and a frame is received whole: 4096 bytes by the handler, and one less than `MAXLINE` by the
client. -/
def step (P : Pair) (slack : Slack) (s : Chats) : ChatEvent → Option Chats
  | .input x line =>
      if s.halted x = false ∧ line ≠ [] ∧ 0 ∉ line ∧ 13 ∉ line ∧ line.length < maxline ∧
          (command (readBuf line)).toOption.join ≠ some .logout then
        some (s.ofClient x ((chatInput slack (readBuf line)).run (s.client x)))
      else none
  | .serve x =>
      match s.toServer x with
      | [] => none
      | data :: rest =>
          if s.serving x = true ∧ data.length ≤ 4096 then
            some (s.ofServer P x data rest
              ((Server.handleData (P.conn x) (P.addr x) data).run s.world))
          else none
  | .deliver x =>
      match s.toClient x with
      | [] => none
      | f :: rest =>
          if s.halted x = false ∧ f.length < maxline then
            some ({ s with toClient := Function.update s.toClient x rest }.ofClient x
              ((chatRead slack f).run (s.client x)))
          else none

/-- Nothing is on its way any more to anyone who would receive it. -/
def Quiet (s : Chats) : Prop :=
  ∀ x, (s.toServer x = [] ∨ s.serving x = false) ∧ (s.toClient x = [] ∨ s.halted x = true)

/-- Both have just logged in. -/
structure Initial (P : Pair) (s : Chats) : Prop where
  users : s.world.users = P.users
  isOpen : ∀ x, s.world.isOpen (P.conn x) = true
  client : ∀ x, s.client x = Process.initial
  halted : ∀ x, s.halted x = false
  serving : ∀ x, s.serving x = true
  toServer : ∀ x, s.toServer x = []
  toClient : ∀ x, s.toClient x = []
  history : s.history = []

/-- The steps as a relation. -/
def Step (P : Pair) (slack : Slack) (s : Chats) (e : ChatEvent) (s' : Chats) : Prop :=
  s.step P slack e = some s'

end Chats

/-! ## Confirmations -/

/-- The frame that confirms a message to the user of that name.
Source: `server.py` `send_ot_to_usr` (line 89) -/
def otFrame (n : Str) : Bytes := encode (Server.ending (Verb.ot ++ ' ' :: n))

/-- A message of `x` is handed on to the other user. -/
def IsForward (P : Pair) (x : Side) : Happening → Prop
  | .sent s => s.conn = P.conn x.other ∧
      encode (Verb.fromUser ++ ' ' :: (P.name x ++ [' '])) <+: s.frame
  | .received _ _ => False

/-- A confirmation of a message to the other user goes to `x`. -/
def IsConfirmation (P : Pair) (x : Side) : Happening → Prop
  | .sent s => s.conn = P.conn x ∧ s.frame = otFrame (P.name x.other)
  | .received _ _ => False

/-- A reply of the other user to a message of `x` is received. -/
def IsReply (P : Pair) (x : Side) : Happening → Prop
  | .received y (some newStr) => y = x.other ∧ newStr.take 4 = Verb.morf ∧
      Server.receiver (newStr.drop 5) = P.name x
  | _ => False

instance (P : Pair) (x : Side) : DecidablePred (IsForward P x)
  | .sent _ => inferInstanceAs (Decidable (_ ∧ _))
  | .received _ _ => inferInstanceAs (Decidable False)

instance (P : Pair) (x : Side) : DecidablePred (IsConfirmation P x)
  | .sent _ => inferInstanceAs (Decidable (_ ∧ _))
  | .received _ _ => inferInstanceAs (Decidable False)

instance (P : Pair) (x : Side) : DecidablePred (IsReply P x)
  | .sent _ => inferInstanceAs (Decidable False)
  | .received _ none => inferInstanceAs (Decidable False)
  | .received _ (some _) => inferInstanceAs (Decidable (_ ∧ _ ∧ _))

/-- Confirmations as the protocol has them: at no time more than the replies received, and in the
end one for each message handed on. -/
def Confirmed (P : Pair) (s : Chats) : Prop :=
  (∀ h, h <+: s.history → ∀ x, h.countP (IsConfirmation P x) ≤ h.countP (IsReply P x)) ∧
    (s.Quiet → ∀ x, s.history.countP (IsConfirmation P x) = s.history.countP (IsForward P x))

/-- A request string that the server takes for a message to the user of that name. -/
def Addresses (n : Str) (newStr : Str) : Prop :=
  newStr.take 2 = Verb.toUser ∧ ∃ m, newStr.drop 3 = n ++ ' ' :: m

/-! ## What the clients write -/

/-- The frames the clients write: `TO` and any text, `MORF` with a name and a message, or
`LISTU`. -/
def ClientFrame (P : Pair) (f : Bytes) : Prop :=
  (∃ t, 0 ∉ t ∧ 13 ∉ t ∧ f = msgTo ++ t ++ Client.ending) ∨
    (∃ y m, '\r' ∉ m ∧ f = wire (Verb.morf ++ ' ' :: (P.name y ++ ' ' :: m))) ∨ f = wire Verb.listu

/-- The frame for a message to nobody.
Source: `server.py` `handle_user` (line 75) -/
def edneFrame (n : Str) : Bytes := encode (Server.ending (Verb.edne ++ ' ' :: n))

/-- The frames that are sent to the clients: messages of the two, `EDNE`, and the list of users. -/
def ServerFrame (P : Pair) (f : Bytes) : Prop :=
  (∃ y m, ('\r' ∉ m ∧ '\x00' ∉ m) ∧ f = fromFrame (P.name y) m) ∨
    (∃ n, '\x00' ∉ n ∧ f = edneFrame n) ∨ f = listReply P.users

/-- What may be pending: nothing, or the beginning of a list of users. -/
def Pending (buf : RecvBuf) : Prop :=
  ∃ p, buf = .of p ∧ 0 ∉ p ∧ p.length < bufLimit ∧ (p = [] ∨ ∃ t, p = serverListUser ++ 32 :: t)

/-- An empty buffer. -/
theorem pending_nil : Pending (.of []) := ⟨[], rfl, List.not_mem_nil, by decide, .inl rfl⟩

/-- From `c₀` on, a client has left its buffer alone and wrote only such frames. -/
def Follows (P : Pair) (c₀ c : Process) : Prop :=
  c.buf = c₀.buf ∧ ∃ ws, c.wrote = c₀.wrote ++ ws ∧ ∀ f ∈ sockWrites ws, ClientFrame P f

section Clients

variable {P : Pair} {c₀ : Process}

/-- Nothing was written. -/
theorem Follows.refl (c₀ : Process) : Follows P c₀ c₀ := ⟨rfl, [], by simp, by simp [sockWrites]⟩

/-- A frame of the client more. -/
theorem Follows.wrote {c : Process} (h : Follows P c₀ c) {fd : Fd} {bs : Bytes}
    (hbs : fd = .sock → ClientFrame P bs) :
    Follows P c₀ { c with wrote := c.wrote ++ [(fd, bs)] } :=
  ⟨h.1, exists_wrote_append h.2 hbs⟩

/-- No output of the client is anything else. -/
theorem stable_follows : Stable (Follows P c₀) where
  wrote := fun _ _ _ hfd h => h.wrote fun heq => absurd heq hfd.ne_sock
  addUser := fun _ _ _ h => h
  confirm := fun _ _ h => h

/-- A line without carriage returns makes the client write a `TO` frame or `LISTU` at most. -/
theorem follows_chatInput (slack : Slack) {line : Bytes} (h0 : 0 ∉ line) (hcr : 13 ∉ line)
    (hlen : line.length < maxline) (hstay : (command (readBuf line)).toOption.join ≠ some .logout)
    (c₀ : Process) : Follows P c₀ ((chatInput slack (readBuf line)).run c₀).2 := by
  refine stable_follows.keeps_chatInput slack h0 hlen (fun str hstr c hc => ?_)
    (fun c hc => ?_) c₀ (.refl c₀)
  · obtain rfl := eq_of_mem_bareRequest hstay hstr
    refine hc.wrote fun _ => .inr (.inr ?_)
    rw [wire_eq, ending_eq]
    rfl
  · refine hc.wrote fun _ => .inl ⟨_, ?_, ?_, rfl⟩
    · exact fun hmem => h0 (List.mem_of_mem_drop hmem)
    · exact fun hmem => hcr (List.mem_of_mem_drop hmem)

/-- The names are words. -/
theorem Pair.oneWord (P : Pair) (x : Side) : OneWord (P.name x) :=
  ⟨P.notMem_name x (by decide), P.notMem_name x (by decide), P.notMem_name x (by decide),
    P.notMem_name x (by decide)⟩

/-- What a client answers to a message holds the whole message. -/
theorem morf_eq_wire (n m : Str) :
    confirmMsgFrom ++ 32 :: (encode n ++ 32 :: encode m ++ Client.ending) =
      wire (Verb.morf ++ ' ' :: (n ++ ' ' :: m)) := by
  rw [wire, encode_append, encode_append, encode_space_cons, encode_append, encode_space_cons,
    ← ending_eq]
  simp [confirmMsgFrom]

/-- The `TO` frame of a message typed. -/
theorem to_eq_wire (n m : Str) :
    msgTo ++ 32 :: (encode n ++ 32 :: encode m) ++ Client.ending =
      wire (Verb.toUser ++ ' ' :: (n ++ ' ' :: m)) := by
  rw [wire_eq, encode_append, encode_space_cons, encode_append, encode_space_cons, ← ending_eq]
  rfl

/-- The bytes of an `EDNE`. -/
theorem edneFrame_eq (n : Str) : edneFrame n = noUsr ++ 32 :: encode n ++ Client.ending := by
  unfold edneFrame
  rw [Server.ending, encode_append, encode_append, encode_space_cons, ending_eq]
  rfl

/-- A list of users is printed. -/
theorem follows_list (slack : Slack) (t : Bytes) (c₀ : Process) :
    Follows P c₀ ((serverFrame slack (textBlock (serverListUser ++ 32 :: t) 4)).run c₀).2 := by
  rw [run_serverFrame_utsil]
  exact Eff.Keeps.bind (stable_follows.quiet.printing.keeps_listUsers _)
    (fun _ => .pure _) c₀ (.refl c₀)

/-- A message is answered at most. -/
theorem follows_message (slack : Slack) (y : Side) {m : Str}
    (hm : '\r' ∉ m ∧ '\x00' ∉ m) (c₀ : Process) :
    Follows P c₀ ((serverFrame slack
      (textBlock (msgFrom ++ 32 :: (encode (P.name y) ++ 32 :: encode m)) 4)).run c₀).2 := by
  rw [run_serverFrame_from]
  refine Eff.Keeps.bind (stable_follows.keeps_processMsg slack _)
    (fun _ => .bind ?_ fun _ => .pure _)
    c₀ (.refl c₀)
  intro c hc
  rw [run_confirmFrom (zero_notMem_fromText (P.oneWord y) hm) (by decide)]
  split_ifs
  · exact hc.wrote fun _ => .inr (.inl ⟨y, m, hm.1, morf_eq_wire _ _⟩)
  · exact hc

/-- The body of a frame, with nothing pending before it, or what is pending of it. -/
theorem follows_seen (slack : Slack) {f : Bytes} (hf : ServerFrame P f) :
    (¬Client.ending <:+ seen f → ∃ t, seen f = serverListUser ++ 32 :: t) ∧
      ∀ body, seen f = body ++ Client.ending → ∀ c₀,
        Follows P c₀ ((serverFrame slack (textBlock body 4)).run c₀).2 := by
  rcases hf with ⟨y, m, hm, rfl⟩ | ⟨n, hn, rfl⟩ | rfl
  · have hbody := zero_notMem_fromBody (P.oneWord y) hm
    rw [fromFrame_eq, seen_of_notMem (zero_notMem_frame hbody)]
    refine ⟨fun hopen => absurd (List.suffix_append _ _) hopen, fun body heq c₀ => ?_⟩
    rw [← List.append_cancel_right heq]
    exact follows_message slack y hm c₀
  · have hbody : 0 ∉ noUsr ++ 32 :: encode n :=
      zero_notMem_words (by decide) (mt zero_mem_encode.mp hn)
    rw [edneFrame_eq, seen_of_notMem (zero_notMem_frame hbody)]
    refine ⟨fun hopen => absurd (List.suffix_append _ _) hopen, fun body heq c₀ => ?_⟩
    rw [← List.append_cancel_right heq, run_serverFrame_edne]
    exact Eff.Keeps.bind (stable_follows.quiet.printing.keeps_noUserExists _)
      (fun _ => .pure _) c₀ (.refl c₀)
  · have hseen : seen (listReply P.users) =
        serverListUser ++ 32 :: seen (listed P.users ++ Client.ending) := by
      have hsplit : listReply P.users = (serverListUser ++ [32]) ++
          (listed P.users ++ Client.ending) := by
        rw [listReply_eq]
        simp
      rw [hsplit, seen_append (by decide)]
      simp
    rw [hseen]
    refine ⟨fun _ => ⟨_, rfl⟩, fun body heq c₀ => ?_⟩
    obtain ⟨t, -, rfl⟩ := exists_of_append_space_eq heq
    exact follows_list slack t c₀

/-- **A frame from the server** makes the client write its answer at most, and leaves the beginning
of a list pending at most. -/
theorem follows_chatRead (slack : Slack) {f : Bytes} (hf : ServerFrame P f)
    (hlen : f.length < maxline) (h : Pending c₀.buf) :
    (∃ b, Follows P (c₀.withBuf b) ((chatRead slack f).run c₀).2) ∧
      ∀ next, ((chatRead slack f).run c₀).1 = .ok next →
        Pending ((chatRead slack f).run c₀).2.buf := by
  obtain ⟨p, hbuf, h0, hlim, hp⟩ := h
  obtain ⟨hpend, hbody⟩ := follows_seen slack hf
  rcases chatRead_cases slack h0 hlim hlen hbuf with ⟨e, b, hrun⟩ | ⟨hshort, hopen,
    hrun⟩ | ⟨body, heq, hrun⟩
  · rw [hrun]
    exact ⟨⟨b, .refl _⟩, nofun⟩
  · rw [hrun]
    refine ⟨⟨_, .refl _⟩,
      fun _ _ => ⟨_, rfl, List.not_mem_append h0 (zero_notMem_seen f), hshort, .inr ?_⟩⟩
    rcases hp with rfl | ⟨t, rfl⟩
    · exact hpend hopen
    · exact ⟨t ++ seen f, by simp⟩
  · have hfollows : Follows P (c₀.withBuf (.of []))
        ((serverFrame slack (textBlock body 4)).run (c₀.withBuf (.of []))).2 := by
      rcases hp with rfl | ⟨t, rfl⟩
      · exact hbody body heq _
      · -- what is handed out begins with the list that was pending
        rw [List.append_assoc, List.cons_append] at heq
        obtain ⟨t', -, rfl⟩ := exists_of_append_space_eq heq
        exact follows_list slack t' _
    rw [hrun]
    refine ⟨⟨_, hfollows⟩, fun _ _ => ?_⟩
    rw [hfollows.1]
    exact pending_nil

end Clients

end ME2U.System
