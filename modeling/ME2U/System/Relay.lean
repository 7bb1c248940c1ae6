import ME2U.System.Attribution

/-!
# A message from one client to another

A `TO` request that arrives in one `recv` is handed on to the first user of the name, or answered
that there is none; the client that reads the frame shows exactly the message.

* `run_handleData_toUser_of_mem`, `run_handleData_toUser_of_notMem`: what the server does.
* `relayed_iff`: server and client together hand on every message, unless the search for the sender
  among the client's users leaves a block or the frame is too long for the receive buffer.
-/

namespace ME2U.System

open Client
open Server (Conn Addr World User)

/-- A name that arrives as one: a word without a carriage return, and not the empty one. -/
def SentName (name : Str) : Prop := name ≠ [] ∧ OneWord name ∧ '\r' ∉ name

instance (name : Str) : Decidable (SentName name) := inferInstanceAs (Decidable (_ ∧ _ ∧ _))

/-- The frame that says that there is nobody of that name.
Source: `server.py` `handle_user` (line 76) -/
def edneOf (name : Str) : Bytes := encode (Server.ending (Verb.edne ++ ' ' :: name))

/-! ## The server -/

/-- One frame was sent, to that connection, and nothing else has changed. -/
def SendsOnly (w w' : World) (conn : Conn) (frame : Bytes) : Prop :=
  w'.users = w.users ∧ w'.isOpen = w.isOpen ∧ w'.sent = w.sent ++ [⟨conn, frame, true⟩]

/-- A frame on an open connection is the only one. -/
theorem sendsOnly_logged {w : World} {conn : Conn} (hopen : w.isOpen conn = true) (frame : Bytes) :
    SendsOnly w (w.logged conn frame) conn frame :=
  ⟨rfl, rfl, by rw [World.logged_sent, hopen]⟩

section Server

variable {w : World} {conn : Conn} {addr : Addr} {s n m : Str} (hn : SentName n) (hm : '\r' ∉ m)
include hn hm

/-- What the handler does with a `TO` request. -/
theorem run_handleData_toUser :
    (Server.handleData conn addr (wire (Request.toUser n m).render)).run w =
      (do
        let found ← Server.findUserToSendMsgTo w.users n m (Server.getNameFromAddr w.users addr)
        if found then pure .again
        else do
          Server.send conn (edneOf n)
          pure .again : Server.Py Server.LoopCtl).run w := by
  have hspace : ' ' ∉ n := hn.2.1.2.2.1
  rw [Server.handleData_wire conn addr (q := .toUser n m) ⟨hn.2.2, hm⟩, Server.dispatch_toUser,
    Server.splitOnce_of_notMem hspace, Eff.run_pure_bind, Eff.run_get_bind]
  rfl

/-- A message to a registered name is sent to the first connection registered under it. -/
theorem run_handleData_toUser_of_mem (hs : Server.getNameFromAddr w.users addr = some s) {i : User}
    (hfind : w.users.find? (·.name == n) = some i) (hopen : w.isOpen i.conn = true) :
    (Server.handleData conn addr (wire (Request.toUser n m).render)).run w =
      (.ok .again, w.logged i.conn (fromFrame s m)) := by
  have hrun := Server.run_findUserToSendMsgTo_of_find hfind m (some s) w
  simp only [if_pos hopen] at hrun
  rw [run_handleData_toUser hn hm, hs, Eff.run_bind_ok hrun, if_pos rfl, Eff.run_pure, fromFrame]

/-- A message to another name is answered that there is nobody of the name. -/
theorem run_handleData_toUser_of_notMem (hfind : w.users.find? (·.name == n) = none)
    (hopen : w.isOpen conn = true) :
    (Server.handleData conn addr (wire (Request.toUser n m).render)).run w =
      (.ok .again, w.logged conn (edneOf n)) := by
  have hspace : ' ' ∉ n := hn.2.1.2.2.1
  rw [Server.handleData_wire conn addr (q := .toUser n m) ⟨hn.2.2, hm⟩,
    Server.run_dispatch_toUser_of_none hspace hfind hopen, edneOf]

end Server

/-! ## Server and client -/

/-- The client that reads the frame writes exactly `m` to the window of `s`, and adds that user
where it has none. -/
def ShownAs (slack : Slack) (s m : Str) (c : Process) (reads : List Bytes) : Prop :=
  Filed c ((chatReads slack reads).run c).2 s m ∧
    ((chatReads slack reads).run c).2.users =
      if ∃ u ∈ c.users, u.username = encode s then c.users
      else c.users ++ [⟨encode s, 0, 0, c.nextFd, c.nextFd + 1, true⟩]

/-- The request is relayed: to a registered name as one frame, which the client shows as the
message, and to another one as an `EDNE` back. -/
def Relayed (slack : Slack) (w : World) (conn : Conn) (addr : Addr) (s n m : Str) (c : Process)
    (reads : List Bytes) : Prop :=
  match w.users.find? (·.name == n) with
  | some i => (∃ w', (Server.handleData conn addr (wire (Request.toUser n m).render)).run w =
      (.ok .again, w') ∧ SendsOnly w w' i.conn (fromFrame s m)) ∧ ShownAs slack s m c reads
  | none => ∃ w', (Server.handleData conn addr (wire (Request.toUser n m).render)).run w =
      (.ok .again, w') ∧ SendsOnly w w' conn (edneOf n)

/-- The users of a client with a user of that name. -/
theorem users_withUser (c : Process) (name : Bytes) :
    (c.withUser name).users =
      if ∃ u ∈ c.users, u.username = name then c.users
      else c.users ++ [⟨name, 0, 0, c.nextFd, c.nextFd + 1, true⟩] := by
  have hany : c.users.any (·.username == name) = true ↔ ∃ u ∈ c.users, u.username = name := by
    simp
  unfold Process.withUser
  simp only [hany]
  split_ifs <;> rfl

/-- **Faithful relay.** For every registry with open connections, every registered sender, every
request and every client that reads the frame, in any reads of which the first has four bytes: the
request is relayed iff, where the name is registered, the frame fits the receive buffer and no
stored name without a byte behind it begins that of the sender. -/
theorem relayed_iff (slack : Slack) (w : World) (conn : Conn) (addr : Addr)
    (s n m : Str) (c : Process)
    (reads : List Bytes) (husers : ∀ u ∈ w.users, w.isOpen u.conn = true)
    (hconn : w.isOpen conn = true) (hs : Server.getNameFromAddr w.users addr = some s)
    (hsname : SentName s) (hn : SentName n) (hm : '\r' ∉ m ∧ '\x00' ∉ m) (hc : c.WellFormed)
    (hempty : c.buf = .of []) (hreads : CutInto (fromFrame s m) reads)
    (hfirst : ∀ b ∈ reads.head?, 4 ≤ b.length) :
    Relayed slack w conn addr s n m c reads ↔
      (Server.checkUserExists w.users n = true → (fromFrame s m).length < bufLimit ∧
        ¬Overread slack (encode s) c.users) := by
  have hword : OneWord s := hsname.2.1
  unfold Relayed
  rw [Server.checkUserExists_eq]
  cases hfind : w.users.find? (·.name == n) with
  | none =>
      have hrun : (Server.handleData conn addr (wire (Request.toUser n m).render)).run w =
          (.ok .again, w.logged conn (edneOf n)) :=
        run_handleData_toUser_of_notMem hn hm.1 hfind hconn
      exact iff_of_true ⟨_, hrun, sendsOnly_logged hconn _⟩ (by simp)
  | some i =>
      have hopen : w.isOpen i.conn = true := husers i (List.mem_of_find?_eq_some hfind)
      have hrun : (Server.handleData conn addr (wire (Request.toUser n m).render)).run w =
          (.ok .again, w.logged i.conn (fromFrame s m)) :=
        run_handleData_toUser_of_mem hn hm.1 hs hfind hopen
      simp only [Option.isSome_some, forall_const]
      rw [and_iff_right ⟨_, hrun, sendsOnly_logged hopen _⟩]
      have hfits : (fromFrame s m).length < bufLimit ↔ Bufferable (fromFrame s m) reads :=
        (and_iff_right hfirst).symm
      rw [hfits]
      constructor
      · rintro ⟨hfiled, -⟩
        by_contra hnot
        exact not_filed_of_shown (shown_run_chatReads_fromFrame hword hm hc hempty hreads hnot)
          hfiled
      · rintro ⟨hbuf, hslack⟩
        obtain ⟨hfiled, hafter⟩ :=
          snd_run_chatReads_fromFrame hword hm hc hempty hreads hbuf hslack
        exact ⟨hfiled, hafter.trans (users_withUser c (encode s))⟩

/-- Two users, `a` and `b`, whose connections are open. -/
private def pairOfUsers : World := ⟨[⟨['a'], 0, 0⟩, ⟨['b'], 1, 1⟩], fun _ => true, []⟩

/-- A message of two words from `a` to `b`, whose client has other users, in two reads. -/
theorem relayed_two_words :
    Relayed roundedUp pairOfUsers 0 0 ['a'] ['b'] ['h', ' ', 'i'] acquainted
      [(fromFrame ['a'] ['h', ' ', 'i']).take 6, (fromFrame ['a'] ['h', ' ', 'i']).drop 6] :=
  (relayed_iff roundedUp pairOfUsers 0 0 ['a'] ['b'] ['h', ' ',
    'i'] acquainted _ (by decide) rfl rfl (by decide) (by decide) (by decide)
    wellFormed_acquainted rfl ⟨by decide, by decide, by decide⟩
    (by decide)).mpr fun _ => ⟨by decide, by decide⟩

/-- A name of 24 bytes fills a block to its end. -/
def filling : Str := List.replicate 24 'a'

/-- A user of that name, and `b`. -/
private def fillingPair : World := ⟨[⟨filling, 0, 0⟩, ⟨['b'], 1, 1⟩], fun _ => true, []⟩

/-- The second message of a sender is not shown where its name fills the block that it is stored
in. -/
theorem not_relayed :
    ¬∀ (slack : Slack) (w : World) (conn : Conn) (addr : Addr) (s n m : Str) (c : Process)
      (reads : List Bytes), (∀ u ∈ w.users, w.isOpen u.conn = true) → w.isOpen conn = true →
      Server.getNameFromAddr w.users addr = some s → SentName s → SentName n →
      '\r' ∉ m ∧ '\x00' ∉ m → c.WellFormed → c.buf = .of [] → CutInto (fromFrame s m) reads →
      (∀ b ∈ reads.head?, 4 ≤ b.length) → Relayed slack w conn addr s n m c reads := by
  intro hall
  have hknown : (Process.initial.addUser (encode filling)).WellFormed :=
    Process.wellFormed_initial.addUser (by decide)
  have hcut : CutInto (fromFrame filling ['h']) [fromFrame filling ['h']] :=
    ⟨by simp, by decide, by decide⟩
  have hrelayed :=
    hall roundedUp fillingPair 0 0 filling ['b'] ['h'] (Process.initial.addUser (encode filling))
    [fromFrame filling ['h']] (by decide) rfl rfl (by decide) (by decide)
      (by decide) hknown rfl hcut
    (by decide)
  have hfiled : Filed (Process.initial.addUser (encode filling)) _ filling ['h'] := hrelayed.2.1
  have hover : Overread roundedUp (encode filling)
      (Process.initial.addUser (encode filling)).users := by
    decide
  exact not_filed_of_shown (shown_run_chatReads_fromFrame (by decide) (by decide) hknown rfl hcut
    fun h => h.2 hover) hfiled

end ME2U.System
