import Mathlib.Data.List.Count
import ME2U.Server.Listener
import ME2U.System.Link

/-!
# The logout

A `BYE` is answered with `EYB`, the connection is closed, the entry removed, and the others are told
with `UOFF`. The loop that tells them stops at the first entry that cannot be sent to, which is one
of a client that dropped its connection, or another entry of the leaver's.

* `run_broadcastUoff_snd`: what the loop sends, wherever it stops.
* `delivered_logout`: what reaches each connection.
* `loggedOut_iff`: everybody who is still there is told exactly where nobody is behind the entry
  that stops the loop.
-/

namespace ME2U.System

open Server (Conn Addr World User Listener)

/-! ## The loop -/

/-- The frame that tells of a user who has left. -/
def uoffFrame (name : Str) : Bytes := encode (Server.ending (Verb.uoff ++ ' ' :: name))

/-- **What the loop sends**: the frame goes out to the entries in front of the first one that cannot
be sent to, where it is tried and the loop raises. -/
theorem run_broadcastUoff_snd (users : List User) (name : Str) (w : World) :
    ((Server.broadcastUoff users name).run w).2 = { w with
      sent := w.sent ++ ((users.takeWhile fun v => w.isOpen v.conn).map fun v =>
        ⟨v.conn, uoffFrame name, true⟩) ++
        ((users.dropWhile fun v => w.isOpen v.conn).take 1).map fun v =>
          ⟨v.conn, uoffFrame name, false⟩ } := by
  induction users generalizing w with
  | nil => simp [Server.broadcastUoff]
  | cons v users ih =>
      unfold Server.broadcastUoff
      by_cases hopen : w.isOpen v.conn = true
      · rw [Server.run_send_bind_of_isOpen hopen, ih]
        simp [uoffFrame, hopen, Server.World.logged]
      · rw [Eff.run_bind_error (by rw [Server.run_send, if_neg hopen])]
        simp [uoffFrame, hopen, Server.World.logged]

/-! ## Who is reached -/

/-- The entries that are told when a user leaves: those in front of the first one whose connection
is closed, as the leaver's is by then. -/
def front (w : World) (u : User) : List User :=
  (w.users.erase u).takeWhile fun v => w.isOpen v.conn && v.conn != u.conn

/-- What is delivered, in two parts. -/
theorem delivered_append (c : Conn) (l m : List Server.Sent) :
    delivered c (l ++ m) = delivered c l ++ delivered c m := by
  simp [delivered]

/-- A frame sent to entries reaches a connection as often as that occurs among them. -/
theorem delivered_map (c : Conn) (users : List User) (f : Bytes) :
    delivered c (users.map fun v => ⟨v.conn, f, true⟩) =
      List.replicate ((users.map User.conn).count c) f := by
  induction users with
  | nil => rfl
  | cons v users ih =>
      by_cases hv : v.conn = c
      · rw [List.map_cons, List.map_cons, hv, List.count_cons_self, List.replicate_succ, ← ih]
        simp [delivered]
      · rw [List.map_cons, List.map_cons, List.count_cons_of_ne hv, ← ih]
        simp [delivered, hv]

/-- What could not be sent reaches nobody. -/
theorem delivered_map_false (c : Conn) (users : List User) (f : Bytes) :
    delivered c (users.map fun v => ⟨v.conn, f, false⟩) = [] := by
  simp [delivered]

section Logout

variable {w : World} {u : User} (hfind : w.users.find? (·.addr == u.addr) = some u)
  (hopen : w.isOpen u.conn = true)

/-- The world after the `BYE` of a user. -/
def afterBye (w : World) (u : User) : World :=
  ((Server.dispatch u.conn u.addr Request.bye.render).run w).2

include hfind hopen

/-- **What a logout sends**, if the entry found for the address is the leaver's. -/
theorem afterBye_eq : ∃ tried, afterBye w u = { w.withdrawn u with
    sent := w.sent ++ ⟨u.conn, wire Verb.eyb, true⟩ ::
      ((front w u).map fun v => ⟨v.conn, uoffFrame u.name, true⟩) ++
        (tried : List User).map fun v => ⟨v.conn, uoffFrame u.name, false⟩ } := by
  have hreach : (fun v : User => (w.withdrawn u).isOpen v.conn) =
      fun v => w.isOpen v.conn && v.conn != u.conn := by
    funext v
    by_cases hv : v.conn = u.conn
    · simp [Server.World.withdrawn, hv]
    · simp [Server.World.withdrawn, hv]
  have hbye : Request.bye.render = Verb.bye := rfl
  have hrun := Server.run_removeUsrByAddr u.addr w
  rw [hfind] at hrun
  simp only [if_pos hopen] at hrun
  unfold afterBye
  rw [hbye, Server.run_dispatch_bye_snd, hrun, run_broadcastUoff_snd, hreach]
  refine ⟨((w.users.erase u).dropWhile fun v => w.isOpen v.conn && v.conn != u.conn).take 1, ?_⟩
  simp [Server.World.withdrawn, front, hopen, wire, Server.ending]

/-- The entry is gone. -/
theorem afterBye_users : (afterBye w u).users = w.users.erase u := by
  obtain ⟨tried, heq⟩ := afterBye_eq hfind hopen
  rw [heq]
  rfl

/-- What reaches a connection during a logout. -/
theorem delivered_afterBye (c : Conn) : delivered c (newly w.sent (afterBye w u).sent) =
    (if u.conn = c then [wire Verb.eyb] else []) ++
      List.replicate (((front w u).map User.conn).count c) (uoffFrame u.name) := by
  obtain ⟨tried, heq⟩ := afterBye_eq hfind hopen
  rw [heq]
  simp only [List.append_assoc, newly_append, List.cons_append]
  rw [← List.singleton_append, delivered_append, delivered_append, delivered_map,
    delivered_map_false, List.append_nil]
  congr 1
  by_cases hc : u.conn = c
  · simp [delivered, hc]
  · simp [delivered, hc]

end Logout

/-! ## What the protocol lays down -/

/-- What the protocol lays down for a `BYE` of a user: the user is sent `EYB` and nothing else, the
entry is removed, and every other user whose connection is open is sent one `UOFF`.
Source: `README.md` Logout Procedure -/
structure LoggedOut (w : World) (u : User) (w' : World) : Prop where
  eyb : delivered u.conn (newly w.sent w'.sent) = [wire Verb.eyb]
  removed : w'.users = w.users.erase u
  told : ∀ v ∈ w.users.erase u, w'.isOpen v.conn = true →
    delivered v.conn (newly w.sent w'.sent) = [uoffFrame u.name]

/-- The leaver's entry is the first one of its address. In front of the first entry that is closed
or of the leaver's connection, no connection occurs twice; and behind it, only such connections are
open as occur in front of it. -/
def EverybodyInFront (w : World) (u : User) : Prop :=
  w.users.find? (·.addr == u.addr) = some u ∧ ((front w u).map User.conn).Nodup ∧
    ∀ v ∈ w.users, w.isOpen v.conn = true → v.conn ≠ u.conn → v.conn ∈ (front w u).map User.conn

section LoggedOut

variable {w : World} {u : User}

/-- Those in front can be sent to, and are not the leaver. -/
theorem mem_front {v : User} (h : v ∈ front w u) :
    v ∈ w.users.erase u ∧ w.isOpen v.conn = true ∧ v.conn ≠ u.conn := by
  refine ⟨(List.takeWhile_sublist _).subset h, ?_⟩
  simpa using List.mem_takeWhile_imp h

/-- The connection is not among those served first. -/
theorem conn_notMem_front : u.conn ∉ (front w u).map User.conn := by
  intro h
  obtain ⟨v, hv, heq⟩ := List.mem_map.mp h
  exact (mem_front hv).2.2 heq

/-- A logout by another entry of the address removes that one, or none. -/
theorem find?_of_removed (hu : u ∈ w.users) (hremoved : (afterBye w u).users = w.users.erase u) :
    w.users.find? (·.addr == u.addr) = some u := by
  have hne : w.users ≠ w.users.erase u := by
    intro heq
    have hlen := congrArg List.length heq
    rw [List.length_erase_of_mem hu] at hlen
    have hpos := List.length_pos_of_mem hu
    omega
  have hiam : Request.bye.render.take 3 ≠ Verb.iam := by decide
  have hbye : Request.bye.render = Verb.bye := rfl
  unfold afterBye at hremoved
  rw [Server.users_run_dispatch, World.usersAfter, if_neg hiam, if_pos hbye] at hremoved
  cases hfind : w.users.find? (·.addr == u.addr) with
  | none =>
      rw [hfind] at hremoved
      exact absurd hremoved hne
  | some u' =>
      rw [hfind] at hremoved
      dsimp only at hremoved
      split_ifs at hremoved
      · by_contra hne'
        have hcount := congrArg (List.count u) hremoved
        rw [List.count_erase_of_ne (fun h => hne' (by rw [h])), List.count_erase_self] at hcount
        have hpos := List.count_pos_iff.mpr hu
        omega
      · exact absurd hremoved hne

/-- **When a logout reaches everybody who is still there**: for every registry and every registered
user who sends a `BYE`. -/
theorem loggedOut_iff (hu : u ∈ w.users) (hopen : w.isOpen u.conn = true) :
    LoggedOut w u (afterBye w u) ↔ EverybodyInFront w u := by
  have hisOpen : ∀ c, c ≠ u.conn → w.users.find? (·.addr == u.addr) = some u →
      (afterBye w u).isOpen c = w.isOpen c := by
    intro c hc hfind
    obtain ⟨tried, heq⟩ := afterBye_eq hfind hopen
    rw [heq]
    exact Function.update_of_ne hc _ _
  constructor
  · intro h
    have hfind := find?_of_removed hu h.removed
    have hcount : ∀ v ∈ w.users, w.isOpen v.conn = true → v.conn ≠ u.conn →
        ((front w u).map User.conn).count v.conn = 1 := by
      intro v hv hvopen hne
      have hmem : v ∈ w.users.erase u := (List.mem_erase_of_ne fun heq => hne (by rw [heq])).mpr hv
      have htold := h.told v hmem (by rw [hisOpen v.conn hne hfind, hvopen])
      rw [delivered_afterBye hfind hopen, if_neg (Ne.symm hne), List.nil_append] at htold
      simpa using congrArg List.length htold
    refine ⟨hfind, ?_, fun v hv hvopen hne => ?_⟩
    · rw [List.nodup_iff_count_le_one]
      intro c
      by_cases hc : c ∈ (front w u).map User.conn
      · obtain ⟨v, hv, rfl⟩ := List.mem_map.mp hc
        obtain ⟨hmem, hvopen, hne⟩ := mem_front hv
        exact (hcount v (List.mem_of_mem_erase hmem) hvopen hne).le
      · rw [List.count_eq_zero_of_not_mem hc]
        exact Nat.zero_le 1
    · rw [← List.count_pos_iff, hcount v hv hvopen hne]
      exact Nat.one_pos
  · rintro ⟨hfind, hnd, hall⟩
    refine ⟨?_, afterBye_users hfind hopen, fun v hv hvopen => ?_⟩
    · rw [delivered_afterBye hfind hopen, if_pos rfl,
        List.count_eq_zero_of_not_mem conn_notMem_front]
      rfl
    · have hne : v.conn ≠ u.conn := by
        intro heq
        obtain ⟨tried, hafter⟩ := afterBye_eq hfind hopen
        rw [hafter, heq] at hvopen
        simp [World.withdrawn] at hvopen
      rw [hisOpen v.conn hne hfind] at hvopen
      have hmem := hall v (List.mem_of_mem_erase hv) hvopen hne
      rw [delivered_afterBye hfind hopen, if_neg (Ne.symm hne), List.count_eq_one_of_mem hnd hmem]
      rfl

end LoggedOut

/-! ## Clients that have dropped their connections -/

/-- One of two users leaves, and the other one is told. -/
theorem loggedOut_of_two : LoggedOut Listener.twoClients.world ⟨['a'], 0, 0⟩
    (afterBye Listener.twoClients.world ⟨['a'], 0, 0⟩) :=
  (loggedOut_iff (by decide) rfl).mpr ⟨by decide, by decide, by decide⟩

/-- Three clients have registered, and the second one has dropped its connection. -/
private def secondDropped : Listener :=
  ((Listener.twoClients.accept 2 2).serve 2 2 (Request.iam ['c']).render).sever 1

private theorem reachable_secondDropped :
    Reachable Listener.Initial Listener.Step secondDropped := by
  have htwo : Reachable Listener.Initial Listener.Step Listener.twoClients :=
    Listener.reaches_twoClients trivial trivial trivial trivial
  have hconn : Reachable Listener.Initial Listener.Step (Listener.twoClients.accept 2 2) :=
    htwo.next (.accepts (by decide) (by decide))
  have hthree := Listener.serve_request hconn 2 2 (.iam ['c']) (show '\r' ∉ ['c'] by decide) trivial
    (by decide) rfl rfl
  exact Reaches.step hthree trivial .breaks

/-- The first one leaves, and the third one, who is behind the second, is not told. -/
theorem not_loggedOut : ¬∀ s : Listener, Reachable Listener.Initial Listener.Step s →
    ∀ u ∈ s.world.users, s.stop u.conn = .waiting → s.world.isOpen u.conn = true →
      LoggedOut s.world u (s.serve u.conn u.addr Request.bye.render).world := by
  intro hall
  have h := hall secondDropped reachable_secondDropped ⟨['a'], 0, 0⟩ (by decide) rfl rfl
  exact absurd (h.told ⟨['c'], 2, 2⟩ (by decide) (by decide)) (by decide)

end ME2U.System
