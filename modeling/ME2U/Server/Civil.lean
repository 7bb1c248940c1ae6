import ME2U.Found.Terminator
import ME2U.Server.Identity

/-!
# One connection among others

A connection is that of `hw1_cli`: it logs in under one name, and then it asks for the list of users
and sends messages and the confirmations of messages, which hold the message behind the name. The
other connections send whatever requests they like, in any order, with names that have no white
space.

* `Listener.Civil`: the condition on a run.
* `Listener.undisturbed`: in such a run the connection stays open, has no other name, and is never
  told good-bye.
* `Exchange.Orderly.talk`: what it is sent after its login is a message, a refusal, a list of users,
  the notice of somebody leaving, or a confirmation that another connection asked for.
-/

namespace ME2U.Server

/-! ## Requests -/

/-- A name without white space. -/
def Spaceless (n : Str) : Prop := n ≠ [] ∧ ∀ c ∈ n, c.isWhitespace = false

instance (n : Str) : Decidable (Spaceless n) := inferInstanceAs (Decidable (_ ∧ _))

/-- No white space is in such a name. -/
theorem Spaceless.notMem {n : Str} (h : Spaceless n) {c : Char} (hc : c.isWhitespace = true) :
    c ∉ n := by
  intro hmem
  rw [h.2 c hmem] at hc
  cases hc

/-- The names in the request have no white space. -/
def Proper : Request → Prop
  | .iam n => Spaceless n
  | .toUser n _ => Spaceless n
  | .morf n => Spaceless n
  | _ => True

/-- A request string of `hw1_cli`: one of its login, `LISTU`, a message, or a confirmation, with
more than a name behind the verb. -/
inductive OwnRequest (name : Str) : Str → Prop
  | me2u : OwnRequest name Request.me2u.render
  | iam : OwnRequest name (Request.iam name).render
  | listu : OwnRequest name Request.listu.render
  | toUser {newStr : Str} : newStr.take 2 = Verb.toUser → OwnRequest name newStr
  | morf {newStr : Str} : newStr.take 4 = Verb.morf → ' ' ∈ newStr.drop 5 → OwnRequest name newStr

/-- The verb of a request of the protocol. -/
theorem eq_iam_of_take {q : Request} (h : q.render.take 3 = Verb.iam) : ∃ n, q = .iam n := by
  cases q with
  | iam n => exact ⟨n, rfl⟩
  | me2u | listu | bye | toUser
  | morf => simp [Request.render, Verb.iam, Verb.me2u, Verb.listu, Verb.bye,
      Verb.toUser, Verb.morf] at h

@[inherit_doc eq_iam_of_take]
theorem eq_morf_of_take {q : Request} (h : q.render.take 4 = Verb.morf) : ∃ n, q = .morf n := by
  cases q with
  | morf n => exact ⟨n, rfl⟩
  | me2u | listu | bye | toUser
  | iam => simp [Request.render, Verb.iam, Verb.me2u, Verb.listu, Verb.bye,
      Verb.toUser, Verb.morf] at h

namespace OwnRequest

variable {name newStr : Str} (h : OwnRequest name newStr)
include h

/-- It is no `BYE`. -/
theorem ne_bye : newStr ≠ Verb.bye := by
  rintro rfl
  have htwo : Verb.bye.take 2 = ['B', 'Y'] := rfl
  cases h with
  | toUser hto => cases htwo.symm.trans hto
  | morf hmorf => cases htwo.symm.trans (take_two_of_take (by decide) hmorf)

/-- A request with that verb is an `IAM`. -/
theorem eq_iam (hiam : newStr.take 3 = Verb.iam) : newStr = (Request.iam name).render := by
  cases h with
  | iam => rfl
  | me2u => cases hiam
  | listu => cases hiam
  | toUser hto =>
      rw [take_two_of_take (by decide) hiam] at hto
      cases hto
  | morf hmorf =>
      have htwo := take_two_of_take (by decide) hmorf
      rw [take_two_of_take (by decide) hiam] at htwo
      cases htwo

/-- The name of a disturbing `MORF` has a blank in it. -/
theorem space_mem (hmorf : newStr.take 4 = Verb.morf) : ' ' ∈ newStr.drop 5 := by
  cases h with
  | morf _ hspace => exact hspace
  | me2u => cases hmorf
  | iam => cases hmorf
  | listu => cases hmorf
  | toUser hto =>
      rw [take_two_of_take (by decide) hmorf] at hto
      cases hto

/-- The request is one that the server knows. -/
theorem known : newStr = Verb.me2u ∨ newStr.take 3 = Verb.iam ∨ newStr = Verb.listu ∨
    newStr.take 2 = Verb.toUser ∨ newStr.take 4 = Verb.morf := by
  cases h with
  | me2u => exact .inl rfl
  | iam => exact .inr (.inl rfl)
  | listu => exact .inr (.inr (.inl rfl))
  | toUser hto => exact .inr (.inr (.inr (.inl hto)))
  | morf hmorf => exact .inr (.inr (.inr (.inr hmorf)))

end OwnRequest

/-! ## What a request closes -/

/-- A connection stays open where the request is not one on it that the server does not know, and
not a `BYE` that removes it. -/
theorem isOpen_run_dispatch {conn : Conn} {addr : Addr} {newStr : Str} {w : World} {c : Conn}
    (hopen : w.isOpen c = true)
    (hknown : c = conn → newStr = Verb.me2u ∨ newStr.take 3 = Verb.iam ∨ newStr = Verb.listu ∨
      newStr.take 2 = Verb.toUser ∨ newStr.take 4 = Verb.morf)
    (hbye : newStr = Verb.bye → ∀ toRem,
      w.users.find? (·.addr == addr) = some toRem → toRem.conn ≠ c) :
    ((dispatch conn addr newStr).run w).2.isOpen c = true := by
  have hlogged : ∀ (w' : World) (d : Conn) (f : Bytes), w'.isOpen c = true →
      (w'.logged d f).isOpen c = true :=
    fun _ _ _ h => h
  rcases branch_cases newStr with rfl | hiam | rfl | hto | hmorf | rfl | hother
  · have hme2u : dispatch conn addr Verb.me2u = _ := dispatch_me2u conn addr
    rw [hme2u, run_send_again_snd]
    exact hopen
  · rw [run_dispatch_iam conn addr hiam]
    split_ifs <;> exact hopen
  · have hlistu : dispatch conn addr Verb.listu = _ := dispatch_listu conn addr
    rw [hlistu, Eff.run_get_bind, run_send_again_snd]
    exact hopen
  · rcases run_dispatch_to_snd conn addr w hto with
      ⟨hrun, -⟩ | ⟨name, msg, -, -, ⟨i, s, -, -, hrun⟩ | ⟨-, hrun⟩⟩ <;> rw [hrun] <;> exact hopen
  · rw [run_dispatch_morf_snd conn addr hmorf]
    exact keeps_sendOtToUsr_of (fun _ _ _ _ _ w' => hlogged w' _ _) w hopen
  · rw [run_dispatch_bye_snd, run_removeUsrByAddr]
    cases hfind : w.users.find? fun i => i.addr == addr with
    | none => exact hopen
    | some toRem =>
        simp only
        split_ifs
        · apply keeps_broadcastUoff_of (fun _ _ w' => hlogged w' _ _)
          show Function.update w.isOpen toRem.conn false c = true
          rwa [Function.update_of_ne (hbye rfl toRem hfind).symm]
        · exact hopen
  · rw [dispatch_of_other conn addr hother]
    show Function.update w.isOpen conn false c = true
    by_cases hc : c = conn
    · rcases hknown hc with h | h | h | h | h
      · exact absurd h hother.1
      · exact absurd h hother.2.1
      · exact absurd h hother.2.2.1
      · exact absurd h hother.2.2.2.1
      · exact absurd h hother.2.2.2.2.1
    · rwa [Function.update_of_ne hc]

/-! ## What is sent to the connection -/

section Connection

variable (me : Conn) (name : Str)

/-- A request that asks for a confirmation to the name: a `MORF` on another connection, which the
registry knows as `x`. -/
def Exchange.Asks (e : Exchange) (x : Str) : Prop :=
  e.conn ≠ me ∧ e.newStr = (Request.morf name).render ∧
    getNameFromAddr e.before.users e.addr = some x

/-- What is sent to the connection in a conversation. -/
inductive Talk (history : List Exchange) : Str → Prop
  | fromUser {s msg : Str} : Spaceless s → Talk history (Verb.fromUser ++ ' ' :: (s ++ ' ' :: msg))
  | utsil {users : List User} : Talk history (Verb.utsil ++ ' ' :: getUsers users)
  | edne {n : Str} : Talk history (Verb.edne ++ ' ' :: n)
  | uoff {n : Str} : Talk history (Verb.uoff ++ ' ' :: n)
  | ot {e : Exchange} {x : Str} : e ∈ history → e.Asks me name x →
      Talk history (Verb.ot ++ ' ' :: x)

/-- What the login is answered with. -/
def loginReplies : List Str := [Verb.u2em, Verb.mai, Verb.motd ++ ' ' :: motd]

/-- The requests of the login. -/
def IsLogin (newStr : Str) : Prop :=
  newStr = Request.me2u.render ∨ newStr = (Request.iam name).render

/-- A request as the parties send them, with the connection registered under its name at most and
not about to be removed. -/
structure Exchange.Orderly (e : Exchange) : Prop where
  spaceless : ∀ u ∈ e.before.users, Spaceless u.name
  /-- The connection has no other name. -/
  own : ∀ u ∈ e.before.users, u.conn = me → u.name = name
  /-- The requests of the connection are those of the client. -/
  mine : e.conn = me → OwnRequest name e.newStr
  /-- The requests of the others are proper. -/
  others : e.conn ≠ me → ∃ q, Proper q ∧ e.newStr = q.render
  /-- A `BYE` is that of another connection. -/
  bye : e.newStr = Verb.bye → ∀ toRem,
    e.before.users.find? (·.addr == e.addr) = some toRem → toRem.conn ≠ me

variable {me name}

/-- The talk stays one as the history grows. -/
theorem Talk.mono {history history' : List Exchange} {body : Str} (h : Talk me name history body)
    (hsub : history ⊆ history') : Talk me name history' body := by
  cases h with
  | fromUser hs => exact .fromUser hs
  | utsil => exact .utsil
  | edne => exact .edne
  | uoff => exact .uoff
  | ot he hasks => exact .ot (hsub he) hasks

/-- **What the connection is sent** on a request: a reply to its own login, or talk. -/
theorem Exchange.Orderly.talk {e : Exchange} (h : e.Orderly me name) {history : List Exchange}
    (he : e ∈ history) {x : Sent} (hx : x ∈ e.sent) (hme : x.conn = me) :
    ∃ body, x.frame = encode (ending body) ∧
      ((e.conn = me ∧ IsLogin name e.newStr ∧ body ∈ loginReplies) ∨
        Talk me name history body) := by
  obtain ⟨body, hframe, hsends⟩ := Exchange.exists_sends hx
  refine ⟨body, hframe, ?_⟩
  generalize x.conn = c at hsends hme
  -- what the client asks a confirmation for is longer than a name
  have hnotmine : ∀ i ∈ e.before.users, e.newStr.take 4 = Verb.morf → i.name = e.newStr.drop 5 →
      e.conn ≠ me := by
    intro i hi hmorf hname hmine
    have hspace := (h.mine hmine).space_mem hmorf
    rw [← hname] at hspace
    exact (h.spaceless i hi).notMem rfl hspace
  cases hsends with
  | u2em hme2u => exact .inl ⟨hme, .inl hme2u, by simp [loginReplies]⟩
  | mai hiam => exact .inl ⟨hme, .inr ((h.mine hme).eq_iam hiam), by simp [loginReplies]⟩
  | motd hiam => exact .inl ⟨hme, .inr ((h.mine hme).eq_iam hiam), by simp [loginReplies]⟩
  | utsil => exact .inr .utsil
  | fromUser _ _ _ _ hs =>
      obtain ⟨u, hu, -, rfl⟩ := mem_of_getNameFromAddr hs
      exact .inr (.fromUser (h.spaceless u hu))
  | edne => exact .inr .edne
  | eyb hbye hfind => exact absurd hme (h.bye hbye _ hfind)
  | uoff => exact .inr .uoff
  | @ot i s hmorf hi hname hs =>
      have hother := hnotmine i hi hmorf hname
      refine .inr (.ot he ⟨hother, ?_, hs⟩)
      obtain ⟨q, -, hq⟩ := h.others hother
      rw [hq] at hmorf hname ⊢
      obtain ⟨n, rfl⟩ := eq_morf_of_take hmorf
      rw [← h.own i hi hme, hname]
      rfl

end Connection

namespace Listener

section Runs

variable (me : Conn) (name : Str)

/-- The connection does not break, and its requests are those of the client; the others send proper
requests, as long as they send. -/
def Civil (_ : Listener) : ListenerEvent → Prop
  | .accepts _ _ => True
  | .receives conn data =>
      (conn = me → ∀ newStr, requestString data = some newStr → OwnRequest name newStr) ∧
        (conn ≠ me → data = [] ∨ ∃ q, Proper q ∧ requestString data = some q.render)
  | .breaks conn => conn ≠ me

/-- What the others leave alone: the connection is open, has no other name, and all requests were
orderly. -/
structure Undisturbed (s : Listener) : Prop where
  coherent : s.Coherent
  spaceless : ∀ u ∈ s.world.users, Spaceless u.name
  own : ∀ u ∈ s.world.users, u.conn = me → u.name = name
  isOpen : ∀ p ∈ s.accepted, p.1 = me → s.world.isOpen me = true
  handled : ∀ e ∈ s.history, e.Orderly me name
  /-- What was sent was sent on a request. -/
  sent : ∀ x ∈ s.world.sent, ∃ e ∈ s.history, x ∈ e.sent

variable {me name} {s : Listener} {conn : Conn} {addr : Addr} {newStr : Str}

/-- The request about to be handled is orderly. -/
theorem Undisturbed.orderly (h : s.Undisturbed me name) (hmem : (conn, addr) ∈ s.accepted)
    (hopen : s.world.isOpen conn = true) (hmine : conn = me → OwnRequest name newStr)
    (hothers : conn ≠ me → ∃ q, Proper q ∧ newStr = q.render) :
    Exchange.Orderly me name ⟨conn, addr, newStr, s.world⟩ := by
  refine ⟨h.spaceless, h.own, hmine, hothers, fun hbye toRem hfind heq => ?_⟩
  -- the entry of the address is that of the connection itself, which does not say `BYE`
  have hrem := List.mem_of_find?_eq_some hfind
  have haddr : toRem.addr = addr := by simpa using List.find?_some hfind
  have hentry := h.coherent.entries toRem hrem
  have hmeopen : s.world.isOpen toRem.conn = true := by
    rw [heq]
    exact h.isOpen _ hentry heq
  have hconn := congrArg Prod.fst (h.coherent.open_unique _ hentry _ hmem haddr hmeopen hopen)
  exact (hmine (hconn.symm.trans heq)).ne_bye hbye

/-- A request that is its own or proper disturbs nothing. -/
theorem Undisturbed.serve (h : s.Undisturbed me name) (hname : Spaceless name)
    (hmem : (conn, addr) ∈ s.accepted) (hopen : s.world.isOpen conn = true)
    (hmine : conn = me → OwnRequest name newStr)
    (hothers : conn ≠ me → ∃ q, Proper q ∧ newStr = q.render) :
    (s.serve conn addr newStr).Undisturbed me name := by
  have horderly : Exchange.Orderly me name ⟨conn, addr, newStr, s.world⟩ :=
    h.orderly hmem hopen hmine hothers
  refine ⟨h.coherent.serve hmem newStr, ?_, ?_, ?_, ?_, ?_⟩
  · intro u hu
    rw [serve_users] at hu
    rcases mem_usersAfter hu with hu | ⟨hiam, rfl, -⟩
    · exact h.spaceless u hu
    · by_cases hconn : conn = me
      · rw [(hmine hconn).eq_iam hiam]
        exact hname
      · obtain ⟨q, hq, rfl⟩ := hothers hconn
        obtain ⟨n, rfl⟩ := eq_iam_of_take hiam
        exact hq
  · intro u hu hconn
    rw [serve_users] at hu
    rcases mem_usersAfter hu with hu | ⟨hiam, rfl, -⟩
    · exact h.own u hu hconn
    · rw [(hmine hconn).eq_iam hiam]
      rfl
  · intro p hp hpme
    apply isOpen_run_dispatch (h.isOpen p hp hpme)
    · exact fun hconn => (hmine hconn.symm).known
    · exact horderly.bye
  · intro e he
    rcases List.mem_append.mp he with he | he
    · exact h.handled e he
    · rw [List.mem_singleton.mp he]
      exact horderly
  · intro x hx
    obtain ⟨new, hsent, -⟩ := sent_run_dispatch conn addr newStr s.world
    have hall : (s.serve conn addr newStr).world.sent = s.world.sent ++ new := hsent
    rw [hall] at hx
    rcases List.mem_append.mp hx with hx | hx
    · obtain ⟨e, he, hxe⟩ := h.sent x hx
      exact ⟨e, List.mem_append_left _ he, hxe⟩
    · refine ⟨⟨conn, addr, newStr, s.world⟩, List.mem_append_right _ List.mem_cons_self, ?_⟩
      have hnew : Exchange.sent ⟨conn, addr, newStr, s.world⟩ = new := by
        unfold Exchange.sent Exchange.after
        rw [hsent, List.drop_left]
      rwa [hnew]

/-- **Every civil run** leaves the connection undisturbed. -/
theorem undisturbed (hname : Spaceless name) (h : Reaches Initial (Civil me name) Step s) :
    s.Undisturbed me name := by
  refine invariant ?_ ?_ ?_ ?_ ?_ h
  · intro s hs
    refine ⟨coherent (.start hs : Reachable Initial Step s), ?_, ?_, ?_, ?_, ?_⟩
    · simp [hs.1.1]
    · simp [hs.1.1]
    · simp [hs.2.1]
    · simp [hs.2.2.2]
    · simp [hs.1.2]
  · rintro s conn addr hs - hnew hclosed
    refine ⟨hs.coherent.accept hnew hclosed, hs.spaceless, hs.own, fun p hp hpme => ?_,
      hs.handled, hs.sent⟩
    by_cases hconn : me = conn
    · subst hconn
      exact Function.update_self ..
    · rw [accept_isOpen_of_ne hconn]
      rcases List.mem_append.mp hp with hp | hp
      · exact hs.isOpen p hp hpme
      · rw [List.mem_singleton.mp hp] at hpme
        exact absurd hpme.symm hconn
  · rintro s conn addr data stop hs - - - -
    exact ⟨hs.coherent.finish conn stop, hs.spaceless, hs.own, hs.isOpen, hs.handled, hs.sent⟩
  · rintro s conn addr data newStr hs ⟨hmine, hothers⟩ hmem - hopen hstr hdata
    refine hs.serve hname hmem hopen (fun hconn => hmine hconn newStr hstr) fun hconn => ?_
    obtain ⟨q, hq, hqstr⟩ := (hothers hconn).resolve_left hdata
    exact ⟨q, hq, Option.some.inj (hstr.symm.trans hqstr)⟩
  · rintro s conn hs hne
    refine ⟨hs.coherent.sever conn, hs.spaceless, hs.own, fun p hp hpme => ?_, hs.handled, hs.sent⟩
    show Function.update s.world.isOpen conn false me = true
    rw [Function.update_of_ne (Ne.symm hne)]
    exact hs.isOpen p hp hpme

end Runs

/-- A step of the server leaves what was sent and handled alone, or handles one request; connections
stay accepted. -/
theorem Step.quiet_or_serve {s t : Listener} {e : ListenerEvent} (h : Step s e t) :
    s.accepted ⊆ t.accepted ∧ ((t.world.sent = s.world.sent ∧ t.history = s.history) ∨
      ∃ conn addr data newStr, e = .receives conn data ∧ requestString data = some newStr ∧
        t = s.serve conn addr newStr) := by
  cases h with
  | accepts => exact ⟨List.subset_append_left _ _, .inl ⟨rfl, rfl⟩⟩
  | breaks => exact ⟨List.Subset.refl _, .inl ⟨rfl, rfl⟩⟩
  | @receives conn addr data =>
      refine ⟨List.Subset.refl _, ?_⟩
      rcases s.turn_cases conn addr data with ⟨-, stop, -, hturn⟩ | ⟨newStr, -, hstr, hturn⟩
      · rw [hturn]
        exact .inl ⟨rfl, rfl⟩
      · exact .inr ⟨conn, addr, data, newStr, rfl, hstr, hturn⟩

end Listener

end ME2U.Server
