import ME2U.System.Session

/-!
# The answer to a name

A client that has sent its name waits in state 3 for `MAI` or `ETAKEN`. The server sends `MAI` and
`MOTD` and registers the client where the name is free; where it is taken, `ETAKEN` is only printed,
and the client goes on waiting.

* `run_loginRead_etaken`, `run_loginRead_mai`: what the client makes of the two answers.
* `unanswered_of_taken`: a taken name is not answered, and the client is left in state 3.
* `iamAnswered_iff`: an `IAM` is answered as the protocol says exactly where its name is free.
-/

namespace ME2U.System

open Client
open Server (Conn Addr World)

/-! ## The client -/

/-- A client that has sent its name, with nothing pending. -/
structure AwaitsAnswer (c : Login) : Prop where
  state : c.state = .approval
  buf : c.buf = .of []
  readBuf : c.readBuf = readBuf []

/-- The client reads frames, each of them with a read of its own. -/
def readFrames (userName : Block) : List Bytes → LoginM Unit
  | [] => pure ()
  | f :: fs => do
      loginRead userName (.data f)
      readFrames userName fs

/-- The client has stopped or is in another state than 3 when it has read the frames. -/
def LeavesApproval (userName : Block) (c : Login) (frames : List Bytes) : Prop :=
  ∀ c', (readFrames userName frames).run c = (.ok (), c') → c'.state ≠ .approval

/-- A whole answer is acted on as it is read. -/
theorem run_loginRead_answer {c : Login} (hc : AwaitsAnswer c) {body : Bytes}
    (hbody : body = serverUserTaken ∨ body = serverUserApprove) (userName : Block) :
    (loginRead userName (.data (body ++ Client.ending))).run c =
      (loginString userName (body ++ Client.ending).length (textBlock body 4)).run
        { c with buf := .of [], readBuf := Client.readBuf (body ++ Client.ending) } := by
  have hread : IsRead (body ++ Client.ending) := by
    rcases hbody with rfl | rfl <;> exact ⟨by decide, by decide⟩
  have hmanageable : Manageable (body ++ Client.ending) := by
    rcases hbody with rfl | rfl <;> exact ⟨by decide, by decide⟩
  have hnil : IsRead [] := ⟨by simp, by decide⟩
  rw [run_loginRead_some hc.buf hc.readBuf (by simp) (by decide) hread hnil
    (by rw [laidOver_nil]; exact hmanageable) (by rw [laidOver_nil]; rfl), laidOver_nil]

/-- A client that is told that its name is taken exits. -/
theorem run_loginRead_etaken {c : Login} (hc : AwaitsAnswer c) (userName : Block) :
    ((loginRead userName (.data (wire Verb.etaken))).run c).1 = .error (.exit 1) := by
  have hwire : wire Verb.etaken = serverUserTaken ++ Client.ending := by decide
  rw [hwire, run_loginRead_answer hc (.inl rfl), loginString, Eff.run_get_bind]
  simp only [hc.state]
  rw [strcmpEq_literal (by decide) (by decide), run_mem_ok_bind, if_pos (by decide)]
  rfl

/-- A client that is told that its name is approved waits for the message of the day. -/
theorem run_loginRead_mai {c : Login} (hc : AwaitsAnswer c) (userName : Block) :
    ∃ c', (loginRead userName (.data (wire Verb.mai))).run c = (.ok (), c') ∧ c'.state = .motd := by
  have hwire : wire Verb.mai = serverUserApprove ++ Client.ending := by decide
  rw [hwire, run_loginRead_answer hc (.inr rfl)]
  exact ⟨_, run_loginString_approval (c := { c with buf := .of [], readBuf := _ })
    hc.state userName _, rfl⟩

/-- An `ETAKEN` gets the client out of state 3. -/
theorem leavesApproval_etaken {c : Login} (hc : AwaitsAnswer c) (userName : Block) :
    LeavesApproval userName c [wire Verb.etaken] := by
  intro c' hrun
  obtain ⟨_, _, hread, -⟩ := Eff.run_bind_eq_ok_iff.mp hrun
  have herror := run_loginRead_etaken hc userName
  rw [hread] at herror
  cases herror

/-- Nothing does not. -/
theorem not_leavesApproval_nil {c : Login} (hc : AwaitsAnswer c) (userName : Block) :
    ¬LeavesApproval userName c [] :=
  fun h => h c rfl hc.state

/-! ## The server -/

section Server

variable {conn : Conn} {addr : Addr} {w : World}

/-- A taken name makes the handler leave its loop without a word. -/
theorem run_dispatch_iam_of_taken {name : Str} (h : Server.checkUserExists w.users name = true) :
    (Server.dispatch conn addr (Request.iam name).render).run w = (.ok .leave, w) := by
  have hiam : (Request.iam name).render.take 3 = Verb.iam := rfl
  have hname : (Request.iam name).render.drop 4 = name := rfl
  rw [Server.run_dispatch_iam conn addr hiam, hname, if_pos h]

/-- **A taken name is not answered**: the client has read all that it was sent and is in state 3. -/
theorem unanswered_of_taken {name : Str} (h : Server.checkUserExists w.users name = true)
    (addr : Addr) {c : Login} (hc : AwaitsAnswer c) (userName : Block) :
    ¬LeavesApproval userName c (delivered conn (newly w.sent
      ((Server.dispatch conn addr (Request.iam name).render).run w).2.sent)) := by
  rw [run_dispatch_iam_of_taken h, newly_self, delivered_nil]
  exact not_leavesApproval_nil hc userName

/-- What the protocol lays down for an `IAM`: the name is refused with an `ETAKEN`, on which the
client leaves state 3, or approved with a `MAI` and a `MOTD`, and registered.
Source: `README.md` Login Procedure -/
structure IamAnswered (w : World) (conn : Conn) (addr : Addr) (name : Str) (w' : World) : Prop where
  taken : Server.checkUserExists w.users name = true →
    w'.sent = w.sent ++ [⟨conn, wire Verb.etaken, true⟩] ∧ w'.users = w.users ∧
      ∀ userName c, AwaitsAnswer c →
        LeavesApproval userName c (delivered conn (newly w.sent w'.sent))
  free : Server.checkUserExists w.users name = false →
    (∃ text, w'.sent = w.sent ++
      [⟨conn, wire Verb.mai, true⟩, ⟨conn, wire (Verb.motd ++ ' ' :: text), true⟩]) ∧
      w'.users = w.users ++ [⟨name, conn, addr⟩]

/-- **When an `IAM` is answered**: on an open connection, exactly where the name is free. -/
theorem iamAnswered_iff (hopen : w.isOpen conn = true) (addr : Addr) (name : Str) :
    IamAnswered w conn addr name
        ((Server.dispatch conn addr (Request.iam name).render).run w).2 ↔
      Server.checkUserExists w.users name = false := by
  constructor
  · intro h
    by_contra htaken
    rw [Bool.not_eq_false] at htaken
    have hsent := (h.taken htaken).1
    rw [run_dispatch_iam_of_taken htaken] at hsent
    simp at hsent
  · intro hfree
    rw [Server.run_dispatch_iam_of_free conn addr hopen hfree]
    refine ⟨fun htaken => ?_, fun _ => ⟨⟨Server.motd, ?_⟩, rfl⟩⟩
    · rw [hfree] at htaken
      cases htaken
    · simp [Server.World.loggedIn, hopen, wire, Server.ending]

/-- A free name on an open connection. -/
theorem iamAnswered_of_newcomer :
    IamAnswered ⟨[], fun _ => true, []⟩ 0 0 ['a']
      ((Server.dispatch 0 0 (Request.iam ['a']).render).run ⟨[], fun _ => true, []⟩).2 :=
  (iamAnswered_iff rfl 0 ['a']).mpr rfl

/-- A second client of the same name gets no answer. -/
theorem not_iamAnswered :
    ¬IamAnswered ⟨[⟨['a'], 0, 0⟩], fun _ => true, []⟩ 1 1 ['a']
      ((Server.dispatch 1 1 (Request.iam ['a']).render).run ⟨[⟨['a'], 0, 0⟩],
        fun _ => true, []⟩).2 := by
  intro h
  exact absurd (h.taken rfl).1 (by decide)

end Server

end ME2U.System
