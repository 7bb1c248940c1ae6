import ME2U.Hw1Client.Login
import ME2U.System.Session

/-!
# A login that gets nowhere

`hw1_client` sends its name in an iteration behind the one in which it reads `U2EM`, and only if
`select` has something to report there. The server has nothing to say before it has the name. So
both wait.

* `Hw1Session.Step`: the client and the handler of its connection go on, a frame at a time.
* `Hw1Session.Deadlocked`: a state in which nothing is on its way, and nothing will be.
* `Hw1Session.deadlocks`: every login gets there.
-/

namespace ME2U.System

open Hw1Client
open Client (Halt ending)
open Server (Conn Addr World)

/-! ## Sessions -/

/-- A client that logs in, and its handler. -/
structure Hw1Session where
  client : Login
  /-- How the client ended, if it did. -/
  halted : Option Halt
  world : World
  /-- Whether the handler is in its loop. -/
  serving : Bool
  /-- What the client wrote and the handler has not received. -/
  toServer : List Bytes
  /-- What the handler sent and the client has not read. -/
  toClient : List Bytes

/-- The steps of a session. -/
inductive Hw1Event
  /-- The client enters `login_proc`. -/
  | begin
  /-- The handler receives a frame of the client and handles it. -/
  | serve
  /-- `select` returns 0. -/
  | timesOut
  /-- `select` reports the socket, with a frame to be read from it. -/
  | selected
  deriving DecidableEq

namespace Hw1Session

/-- Whether the client is in the loop of `login_proc`. -/
def Waiting (s : Hw1Session) : Prop :=
  s.halted = none ∧ s.client.state ≠ .start ∧ s.client.state ≠ .done

instance (s : Hw1Session) : Decidable s.Waiting := inferInstanceAs (Decidable (_ ∧ _ ∧ _))

/-- The session after a part of the client has run. -/
def ofClient (s : Hw1Session) (r : Except Halt Unit × Login) : Hw1Session :=
  { s with
    client := r.2
    halted := match r.1 with
      | .ok _ => none
      | .error e => some e
    toServer := s.toServer ++ newly s.client.sent r.2.sent }

/-- The session after the handler has handled what it received. -/
def ofServer (s : Hw1Session) (conn : Conn) (rest : List Bytes)
    (r : Except Server.PyExc Server.LoopCtl × World) : Hw1Session :=
  { s with
    world := r.2
    serving := match r.1 with
      | .ok .again => true
      | _ => false
    toServer := rest
    toClient := s.toClient ++ delivered conn (newly s.world.sent r.2.sent) }

section Steps

variable (slack : ℕ) (conn : Conn) (addr : Addr)

/-- One step, where it can be taken. -/
def step (userName : Block) (s : Hw1Session) : Hw1Event → Option Hw1Session
  | .begin =>
      if s.halted = none ∧ s.client.state = .start then
        some (s.ofClient ((loginBegin slack).run s.client))
      else none
  | .serve =>
      match s.toServer with
      | [] => none
      | data :: rest =>
          if s.serving then
            some (s.ofServer conn rest ((Server.handleData conn addr data).run s.world))
          else none
  | .timesOut => if s.Waiting then some s else none
  | .selected =>
      match s.toClient with
      | [] => none
      | frame :: rest =>
          if s.Waiting then
            some ({ s with toClient := if s.client.reads then rest else frame :: rest }.ofClient
              ((loginSelected slack userName true (.data frame)).run s.client))
          else none

/-- The steps for a user name. -/
def Step (name : Str) (s : Hw1Session) (e : Hw1Event) (s' : Hw1Session) : Prop :=
  ∃ userName, currentUserName (encode name) = .ok userName ∧
    s.step slack conn addr userName e = some s'

/-- Before the login. -/
def start (w : World) : Hw1Session := ⟨⟨.start, [], []⟩, none, w, true, [], []⟩

/-- The states that a login reaches. -/
abbrev Reached (name : Str) (w : World) : Hw1Session → Prop :=
  Reachable (· = start w) (Step slack conn addr name)

/-- A state other than the last in which nothing is on its way, and neither side will send
anything. -/
structure Deadlocked (name : Str) (s : Hw1Session) : Prop where
  state : s.client.state ≠ .done
  toServer : s.toServer = []
  toClient : s.toClient = []
  silent : Quiescent (Step slack conn addr name) (fun s => (s.client.sent, s.world.sent)) s

end Steps

/-! ## The way there -/

variable {slack : ℕ} {conn : Conn} {addr : Addr} {name : Str} {w : World}

/-- Where nothing is on its way and the greeting is past, no step does anything. -/
theorem deadlocked_of_nil {s : Hw1Session} (hstate : s.client.state ≠ .done)
    (hsrv : s.toServer = [])
    (hcli : s.toClient = []) (hbegun : s.halted = none → s.client.state ≠ .start) :
    s.Deadlocked slack conn addr name := by
  refine ⟨hstate, hsrv, hcli, .of_fixed fun e s' hst => ?_⟩
  obtain ⟨userName, -, hstep⟩ := hst
  cases e with
  | begin =>
      rw [step, if_neg fun h => hbegun h.1 h.2] at hstep
      cases hstep
  | serve =>
      rw [step, hsrv] at hstep
      cases hstep
  | timesOut =>
      rw [step] at hstep
      split_ifs at hstep
      exact (Option.some.inj hstep).symm
  | selected =>
      rw [step, hcli] at hstep
      cases hstep

/-- A name can always be copied, as far as there is room. -/
theorem exists_currentUserName (name : Bytes) :
    ∃ userName, currentUserName name = .ok userName := by
  have hmin : min 20 name.length ≤ (textBlock name 1).length := by
    rw [length_textBlock]
    omega
  have hfits : 0 + ((textBlock name 1).take (min 20 name.length)).length ≤ (zeros 20).length := by
    rw [List.length_take, length_zeros]
    omega
  unfold currentUserName memcpy
  rw [if_pos hmin, store, if_pos hfits]
  exact ⟨_, rfl⟩

/-- The client waits for the chance to send its name. -/
def stuck (conn : Conn) (w : World) : Hw1Session :=
  ⟨⟨.name, [me2uFrame], []⟩, none, w.logged conn u2emFrame, true, [], []⟩

/-- **The login gets stuck** behind the greeting. -/
theorem reached_stuck (hslack : 5 ≤ slack) (hopen : w.isOpen conn = true) :
    Reached slack conn addr name w (stuck conn w) := by
  obtain ⟨userName, hname⟩ := exists_currentUserName (encode name)
  let greeting : Hw1Session := ⟨⟨.hello, [me2uFrame], []⟩, none, w, true, [me2uFrame], []⟩
  let replied : Hw1Session :=
    ⟨⟨.hello, [me2uFrame], []⟩, none, w.logged conn u2emFrame, true, [], [u2emFrame]⟩
  have hbegin : (start w).step slack conn addr userName .begin = some greeting := by
    have hrun := run_loginBegin slack (start w).client
    rw [if_pos hslack] at hrun
    rw [step, if_pos ⟨rfl, rfl⟩, hrun]
    rfl
  have hserve : greeting.step slack conn addr userName .serve = some replied := by
    have hgreeting : me2uFrame = wire Request.me2u.render := by decide
    have hrun := Server.run_handleData_me2u conn addr hopen
    rw [← hgreeting, ← u2emFrame_eq] at hrun
    show some (greeting.ofServer conn [] ((Server.handleData conn addr me2uFrame).run w)) = _
    rw [hrun]
    simp [ofServer, greeting, replied, delivered, hopen]
  have hselected : replied.step slack conn addr userName .selected = some (stuck conn w) := by
    have hroom : slack ≠ 0 := by omega
    have hhello : replied.client.state = .hello := rfl
    have hrun := run_loginSelected_hello hhello hroom userName
    show some (ofClient _ ((loginSelected slack userName true (.data u2emFrame)).run
      replied.client)) = _
    have hframe : u2emFrame = serverLoginInit ++ ending := rfl
    rw [hframe, hrun]
    rfl
  exact Reachable.next (Reachable.next (Reachable.next (.start rfl) ⟨userName, hname, hbegin⟩)
    ⟨userName, hname, hserve⟩) ⟨userName, hname, hselected⟩

/-- Without room for the ending, the client does not even greet. -/
theorem exists_reached_of_lt (hslack : slack < 5) : ∃ s, Reached slack conn addr name w s ∧
    s.client.state = .start ∧ s.halted ≠ none ∧ s.toServer = [] ∧ s.toClient = [] := by
  obtain ⟨userName, hname⟩ := exists_currentUserName (encode name)
  have hrun := run_loginBegin slack (start w).client
  rw [if_neg (Nat.not_le.mpr hslack)] at hrun
  have hbegin : (start w).step slack conn addr userName .begin =
      some { start w with halted := some (.fault .outOfBounds) } := by
    rw [step, if_pos ⟨rfl, rfl⟩, hrun]
    rfl
  exact ⟨_, Reachable.next (.start rfl) ⟨userName, hname, hbegin⟩, rfl, by simp, rfl, rfl⟩

/-- **Every login deadlocks**: whatever the name, and whoever else is logged in, a state is reached
in which nothing is on its way and nobody will send anything. The client is alive there, unless it
could not build its greeting. -/
theorem deadlocks (slack : ℕ) (addr : Addr) (hfree : Free conn name w) :
    ∃ s, Reached slack conn addr name w s ∧ s.Deadlocked slack conn addr name ∧
      (5 ≤ slack → s.halted = none) := by
  by_cases hslack : 5 ≤ slack
  · refine ⟨stuck conn w, reached_stuck hslack hfree.1, ?_, fun _ => rfl⟩
    apply deadlocked_of_nil
    · simp [stuck]
    · rfl
    · rfl
    · simp [stuck]
  · obtain ⟨s, hs, hstate, hhalted, hsrv, hcli⟩ := exists_reached_of_lt (Nat.not_le.mp hslack)
    refine ⟨s, hs, ?_, fun h => absurd h hslack⟩
    apply deadlocked_of_nil
    · rw [hstate]
      decide
    · exact hsrv
    · exact hcli
    · exact fun hnone => absurd hnone hhalted

/-- A login to a server without users, where blocks have room for a string and its ending. -/
theorem deadlocks_sixteen : ∃ s, Reached 16 0 0 ['a'] ⟨[], fun _ => true, []⟩ s ∧
    s.Deadlocked 16 0 0 ['a'] ∧ s.halted = none := by
  have hfree : Free 0 ['a'] ⟨[], fun _ => true, []⟩ := ⟨rfl, rfl⟩
  obtain ⟨s, hs, hdead, halive⟩ := deadlocks 16 0 hfree
  exact ⟨s, hs, hdead, halive (by decide)⟩

/-- Such a login stops in state 2. -/
theorem not_deadlock_free : ¬∀ slack conn addr name w, Free conn name w →
    ∀ s, Reached slack conn addr name w s → ¬s.Deadlocked slack conn addr name := by
  intro hall
  apply hall 16 0 0 ['a'] ⟨[], fun _ => true, []⟩ ⟨rfl, rfl⟩ (stuck 0 ⟨[], fun _ => true, []⟩)
    (reached_stuck (by decide) rfl)
  exact deadlocked_of_nil (by decide) rfl rfl fun _ => by decide

end Hw1Session

end ME2U.System
