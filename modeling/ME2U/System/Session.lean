import ME2U.Found.Runs
import ME2U.System.Link

/-!
# Sessions

A session is a client in `login_proc`, the handler of its connection, and what is on its way between
them. The handler receives each write of the client whole, and the client reads any part of what is
on its way to it.

* `Session.step`: the client or the handler goes on.
* `Careful`: no read passes the end of a frame, and the first read of each frame has four bytes.
* `isSuffix_motdText_iff`: when the client takes `MOTD` for complete, with an old text behind it.
-/

namespace ME2U.System

open Client
open Server (Conn Addr World)

/-! ## Sessions -/

/-- A client that logs in, and its handler. -/
structure Session where
  client : Login
  /-- How the client ended, if it did. -/
  halted : Option Halt
  world : World
  /-- Whether the handler is in its loop. -/
  serving : Bool
  /-- What the client wrote and the handler has not received. -/
  toServer : List Bytes
  /-- What the handler sent and the client has not read. -/
  toClient : List Bytes

/-- The steps of a session. -/
inductive Event
  /-- The client enters `login_proc`. -/
  | begin
  /-- The handler receives a write of the client and handles it. -/
  | serve
  /-- The client reads some bytes and goes on to its next `read`. -/
  | read (b : Bytes)
  deriving DecidableEq

/-- The session after a part of the client has run. -/
def Session.ofClient (s : Session) (r : Except Halt Unit × Login) : Session :=
  { s with
    client := r.2
    halted := match r.1 with
      | .ok _ => none
      | .error e => some e
    toServer := s.toServer ++ newly s.client.sent r.2.sent }

/-- The session after the handler has handled what it received. -/
def Session.ofServer (s : Session) (conn : Conn) (rest : List Bytes)
    (r : Except Server.PyExc Server.LoopCtl × World) : Session :=
  { s with
    world := r.2
    serving := match r.1 with
      | .ok .again => true
      | _ => false
    toServer := rest
    toClient := s.toClient ++ delivered conn (newly s.world.sent r.2.sent) }

/-- One step, where it can be taken. -/
def Session.step (conn : Conn) (addr : Addr) (userName : Block) (s : Session) :
    Event → Option Session
  | .begin =>
      if s.client.state = .start then some (s.ofClient (loginBegin.run s.client)) else none
  | .serve =>
      match s.toServer with
      | [] => none
      | data :: rest =>
          if s.serving then
            some (s.ofServer conn rest ((Server.handleData conn addr data).run s.world))
          else none
  | .read b =>
      if s.halted = none ∧ s.client.state ≠ .start ∧ s.client.state ≠ .done ∧ b ≠ [] ∧
          b.length < maxline ∧ b <+: s.toClient.flatten then
        some ({ s with toClient := dropBytes s.toClient b.length }.ofClient
          ((loginRead userName (.data b)).run s.client))
      else none

/-- The steps for a user name. -/
def Step (conn : Conn) (addr : Addr) (name : Str) (s : Session) (e : Event) (s' : Session) : Prop :=
  ∃ userName, currentUserName (encode name) = .ok userName ∧ s.step conn addr userName e = some s'

/-- The name is free and the connection open. -/
def Free (conn : Conn) (name : Str) (w : World) : Prop :=
  w.isOpen conn = true ∧ Server.checkUserExists w.users name = false

/-- Before the login: nothing is on its way, and the name is free. -/
structure Initial (conn : Conn) (name : Str) (s : Session) : Prop where
  client : s.client = ⟨.of [], readBuf [], .start, [], []⟩
  halted : s.halted = none
  serving : s.serving = true
  toServer : s.toServer = []
  toClient : s.toClient = []
  free : Free conn name s.world

/-- All bytes sent have been handled and read. -/
def Session.Settled (s : Session) : Prop :=
  s.client.state ≠ .start ∧ s.toServer = [] ∧ s.toClient = []

/-- No read passes the end of the frame it starts in, and a read with nothing pending has four
bytes. -/
def Careful (s : Session) : Event → Prop
  | .read b => (∀ f ∈ s.toClient.head?, b.length ≤ f.length) ∧
      (s.client.buf.text = .ok [] → 4 ≤ b.length)
  | _ => True

/-- A name of 1 to 10 characters without spaces and control characters. -/
def LoginName (name : Str) : Prop :=
  1 ≤ name.length ∧ name.length ≤ 10 ∧ ∀ c ∈ name, 32 < c.toNat ∧ c.toNat ≠ 127

instance (name : Str) : Decidable (LoginName name) := inferInstanceAs (Decidable (_ ∧ _ ∧ _))

/-- Neither white space nor a control character is in such a name. -/
theorem LoginName.notMem {name : Str} (h : LoginName name) {c : Char} (hc : c.toNat ≤ 32) :
    c ∉ name :=
  fun hmem => absurd (h.2.2 c hmem).1 (Nat.not_lt.mpr hc)

/-! ## The frames of a login -/

/-- The replies to a login. -/
def u2emFrame : Bytes := serverLoginInit ++ Client.ending
@[inherit_doc u2emFrame] def maiFrame : Bytes := serverUserApprove ++ Client.ending
@[inherit_doc u2emFrame] def motdFrame : Bytes :=
  serverMotd ++ (32 :: encode Server.motd ++ Client.ending)

theorem maiFrame_eq : maiFrame = encode (Server.ending Verb.mai) := by decide

theorem motdFrame_eq : motdFrame = encode (Server.ending (Verb.motd ++ ' ' :: Server.motd)) := by
  decide

theorem u2emFrame_eq : u2emFrame = encode (Server.ending Verb.u2em) := by decide

/-- The client sends the `IAM` of the protocol. -/
theorem iamFrame_eq (name : Str) : iamFrame (encode name) = wire (Request.iam name).render := by
  rw [wire, Request.render, encode_append, encode_append, encode_space_cons, iamFrame, ending_eq]
  simp [clientSetUser]

/-- The text of the `MOTD` frame up to `j` bytes, with the end `lo` of an older text behind the
first `k` of them. -/
def motdText (lo : Bytes) (k j : ℕ) : Bytes := motdFrame.take k ++ lo ++ (motdFrame.take j).drop k

/-- What may be left of `MAI` behind a first read of `k` bytes: nothing, or what those did not
overwrite. -/
def LeftOver (lo : Bytes) (k : ℕ) : Prop := lo = [] ∨ lo = maiFrame.drop k

theorem isSuffix_motdText_drop : ∀ k < 22, ∀ j < 22, 4 ≤ k ∧ k ≤ j →
    (Client.ending <:+ motdText (maiFrame.drop k) k j ↔ j = 21) := by
  decide

theorem isSuffix_take_motdFrame : ∀ j < 22, (Client.ending <:+ motdFrame.take j ↔ j = 21) := by
  decide

section MotdText

variable {lo : Bytes} {k j : ℕ} (hlo : LeftOver lo k)
include hlo

/-- Whatever of `MAI` is left behind the first read, the text is complete when all of `MOTD` is. -/
theorem isSuffix_motdText_iff (hk : 4 ≤ k) (hkj : k ≤ j) (hj : j ≤ 21) :
    Client.ending <:+ motdText lo k j ↔ j = 21 := by
  rcases hlo with rfl | rfl
  · have htake : motdText [] k j = motdFrame.take j := by
      have h := List.take_append_drop k (motdFrame.take j)
      rwa [List.take_take, Nat.min_eq_left hkj, ← List.append_nil (motdFrame.take k)] at h
    rw [htake, isSuffix_take_motdFrame j (by omega)]
  · exact isSuffix_motdText_drop k (by omega) j (by omega) ⟨hk, hkj⟩

/-- There is no NUL in what is read behind the `MAI`, -/
theorem zero_notMem_motdText : 0 ∉ motdText lo k j := by
  have hmotd : (0 : UInt8) ∉ motdFrame := by decide
  have hmai : (0 : UInt8) ∉ maiFrame := by decide
  have hlo0 : 0 ∉ lo := by
    rcases hlo with rfl | rfl
    · simp
    · exact fun h => hmai (List.mem_of_mem_drop h)
  rw [motdText, List.mem_append, List.mem_append, not_or, not_or]
  exact ⟨⟨fun h => hmotd (List.mem_of_mem_take h), hlo0⟩,
    fun h => hmotd (List.mem_of_mem_take (List.mem_of_mem_drop h))⟩

/-- and the client can manage it. -/
theorem manageable_motdText (hk : 4 ≤ k) (hkj : k ≤ j) (hj : j ≤ 21) :
    Manageable (motdText lo k j) := by
  have hlen : motdFrame.length = 21 := by decide
  have hmai : maiFrame.length = 7 := by decide
  have hlolen : lo.length ≤ 7 := by
    rcases hlo with rfl | rfl
    · simp
    · rw [List.length_drop]
      omega
  unfold Manageable bufLimit
  simp only [motdText, List.length_append, List.length_take, List.length_drop, hlen]
  omega

/-- The complete text is `MOTD` and something, with its ending. -/
theorem exists_motdText_eq (hk : 4 ≤ k) (hk' : k ≤ 21) :
    ∃ rest, 0 ∉ rest ∧ motdText lo k 21 = serverMotd ++ rest ++ Client.ending := by
  obtain ⟨body, hbody⟩ := (isSuffix_motdText_iff hlo hk hk' (Nat.le_refl 21)).mpr rfl
  have hpre : serverMotd <+: body ++ Client.ending := by
    have hfour : serverMotd = motdFrame.take 4 := by decide
    rw [hbody, motdText, hfour, List.append_assoc]
    exact (List.take_prefix_take_left hk).trans (List.prefix_append _ _)
  have hlen : serverMotd.length ≤ body.length := by
    have h := congrArg List.length hbody
    have hfull : motdFrame.length = 21 := by decide
    have hmotd : serverMotd.length = 4 := by decide
    simp only [motdText, List.length_append, List.length_take, List.length_drop, hfull,
      length_ending] at h
    omega
  obtain ⟨rest, rfl⟩ := List.prefix_of_prefix_length_le hpre (List.prefix_append body _) hlen
  refine ⟨rest, fun h => zero_notMem_motdText hlo (j := 21) ?_, hbody.symm⟩
  rw [← hbody]
  exact List.mem_append_left _ (List.mem_append_right _ h)

end MotdText

/-- Reading on in the `MOTD` frame. -/
theorem motdText_append {lo b rest : Bytes} {k j : ℕ} (hkj : k ≤ j)
    (hb : motdFrame.drop j = b ++ rest) : motdText lo k j ++ b = motdText lo k (j + b.length) := by
  have htake : motdFrame.take (j + b.length) = motdFrame.take j ++ b := by
    rw [List.take_add, hb, List.take_left]
  have hlen : k ≤ (motdFrame.take j).length ∨ b = [] := by
    by_cases hj : j ≤ motdFrame.length
    · exact .inl (by rw [List.length_take]; omega)
    · rw [List.drop_eq_nil_of_le (by omega)] at hb
      exact .inr (List.append_eq_nil_iff.mp hb.symm).1
  rw [motdText, motdText, htake]
  rcases hlen with hlen | rfl
  · rw [List.drop_append_of_le_length hlen, ← List.append_assoc]
  · simp

end ME2U.System
