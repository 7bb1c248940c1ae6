import Mathlib.Algebra.GroupWithZero.Nat
import ME2U.Server.Identity

/-!
# Confirmations and what they are sent for

A `MORF` is handed on as an `OT`, whatever was sent before: the server keeps no record of messages.
So confirmations are bounded by the requests for them and not by the messages they should answer.

* `confirmations_le`: no more confirmations are sent than are asked for.
* `not_confirmations_earned`: a client gets one for a message it never sent.
-/

namespace ME2U.Server

/-- How many frames `OT b` were sent to `a`, that is, on connections registered as `a`. -/
def Exchange.confirmationsTo (e : Exchange) (a b : Str) : ℕ :=
  e.sent.countP fun x => x.frame == encode (ending (Verb.ot ++ ' ' :: b)) &&
    e.before.users.any fun u => u.name == a && u.conn == x.conn

/-- How many frames `FROM a …` were sent to `b`. -/
def Exchange.messagesTo (e : Exchange) (a b : Str) : ℕ :=
  e.sent.countP fun x => (encode (Verb.fromUser ++ ' ' :: (a ++ [' ']))).isPrefixOf x.frame &&
    e.before.users.any fun u => u.name == b && u.conn == x.conn

/-- The request is a `MORF` of a client that the registry knows as `b`, and what it names is `a` or
another name of the connection of `a`. -/
def Exchange.confirms (e : Exchange) (a b : Str) : Bool :=
  e.newStr.take 4 == Verb.morf && getNameFromAddr e.before.users e.addr == some b &&
    e.before.users.any fun u => u.name == a &&
      e.before.users.any fun v => v.name == e.newStr.drop 5 && v.conn == u.conn

/-- Where names are distinct, a `MORF` makes the server send one frame at most. -/
theorem Exchange.length_sent_le_one {e : Exchange} (hnd : (e.before.users.map User.name).Nodup)
    (hmorf : e.newStr.take 4 = Verb.morf) : e.sent.length ≤ 1 := by
  unfold Exchange.sent Exchange.after
  rw [run_dispatch_morf_snd e.conn e.addr hmorf]
  cases hfind : e.before.users.find? (·.name == e.newStr.drop 5) with
  | none =>
      have hne : ∀ u ∈ e.before.users, u.name ≠ e.newStr.drop 5 := by
        simpa using hfind
      rw [sendOtToUsr_of_forall_ne hne, Eff.run_pure]
      simp
  | some i =>
      cases hname : getNameFromAddr e.before.users e.addr with
      | none =>
          -- the first user of that name stops the loop
          have hkeeps : Eff.Keeps (fun w => w.sent = e.before.sent)
              (sendOtToUsr e.before.users (e.newStr.drop 5) none) :=
            keeps_sendOtToUsr_of fun _ _ _ _ hs => by cases hs
          rw [hkeeps e.before rfl]
          simp
      | some s =>
          rw [run_sendOtToUsr_of_find hnd hfind, World.logged_sent]
          simp

/-- A confirmation is sent on a request for it. -/
theorem Exchange.confirms_of_sent {e : Exchange} {a b : Str} {x : Sent} (hx : x ∈ e.sent)
    (hframe : x.frame = encode (ending (Verb.ot ++ ' ' :: b)))
    (hto : ∃ u ∈ e.before.users, u.name = a ∧ u.conn = x.conn) :
    e.newStr.take 4 = Verb.morf ∧ e.confirms a b = true := by
  obtain ⟨body, hbody, hsends⟩ := Exchange.exists_sends hx
  have heq : body = Verb.ot ++ ' ' :: b := encode_ending_inj.mp (hbody.symm.trans hframe)
  obtain ⟨u, hu, hua, huc⟩ := hto
  generalize hc : x.conn = c at hsends huc
  cases hsends with
  | @ot i s hmorf hi hname hs =>
      obtain rfl : s = b := by simpa using heq
      refine ⟨hmorf, ?_⟩
      simp only [Exchange.confirms, Bool.and_eq_true, beq_iff_eq, List.any_eq_true]
      exact ⟨⟨hmorf, hs⟩, u, hu, hua, i, hi, hname, huc.symm⟩
  | u2em _ | mai _ | motd _ | utsil _ | edne _ _ _ _ | eyb _ _ | uoff _ _ _ | fromUser _ _ _ _ _ =>
      simp [Verb.u2em, Verb.mai, Verb.motd, Verb.utsil, Verb.edne, Verb.eyb,
        Verb.uoff, Verb.fromUser, Verb.ot] at heq

/-- One request sends one confirmation at most, and none that it does not ask for. -/
theorem Exchange.confirmationsTo_le {e : Exchange} (hnd : (e.before.users.map User.name).Nodup)
    (a b : Str) : e.confirmationsTo a b ≤ if e.confirms a b then 1 else 0 := by
  unfold Exchange.confirmationsTo
  by_cases hnone : ∀ x ∈ e.sent, ¬(x.frame == encode (ending (Verb.ot ++ ' ' :: b)) &&
      e.before.users.any fun u => u.name == a && u.conn == x.conn) = true
  · rw [List.countP_eq_zero.mpr hnone]
    exact Nat.zero_le _
  · push Not at hnone
    obtain ⟨x, hx, hp⟩ := hnone
    simp only [Bool.and_eq_true, beq_iff_eq, List.any_eq_true] at hp
    obtain ⟨hmorf, hconfirms⟩ := Exchange.confirms_of_sent hx hp.1 hp.2
    rw [if_pos hconfirms]
    exact List.countP_le_length.trans (Exchange.length_sent_le_one hnd hmorf)

/-- A sum of zeros and ones is at most the count of the ones. -/
theorem sum_map_le_countP {α : Type} {f : α → ℕ} {p : α → Bool} {l : List α}
    (h : ∀ a ∈ l, f a ≤ if p a then 1 else 0) : (l.map f).sum ≤ l.countP p := by
  induction l with
  | nil => simp
  | cons a l ih =>
      rw [List.map_cons, List.sum_cons, List.countP_cons, Nat.add_comm]
      exact Nat.add_le_add (ih fun b hb => h b (by simp [hb])) (h a (by simp))

namespace Listener

/-- **Confirmations are asked for.** In every run and for all names, the confirmations from `b` that
were sent to `a` are at most as many as the `MORF` requests of clients known as `b` that name `a`
(or another name of its connection). -/
theorem confirmations_le {s : Listener} (h : Reachable Initial Step s) (a b : Str) :
    (s.history.map fun e => e.confirmationsTo a b).sum ≤ s.history.countP fun e => e.confirms a b :=
  sum_map_le_countP fun e he => Exchange.confirmationsTo_le ((coherent h).handled e he).2 a b

/-- A `MORF` from `b` to `a` sends `a` one confirmation. -/
theorem confirmations_le_morf :
    ((twoClients.serve 1 1 (Request.morf ['a']).render).history.map
        fun e => e.confirmationsTo ['a'] ['b']).sum = 1 ∧
      ((twoClients.serve 1 1 (Request.morf ['a']).render).history.map
          fun e => e.confirmationsTo ['a'] ['b']).sum ≤
        (twoClients.serve 1 1 (Request.morf ['a']).render).history.countP
          fun e => e.confirms ['a'] ['b'] :=
  ⟨by decide,
    confirmations_le (serve_request (reaches_twoClients trivial trivial trivial trivial) 1 1
      (.morf ['a']) (show '\r' ∉ ['a'] by decide) trivial (by decide) rfl rfl) ['a'] ['b']⟩

/-- The server confirms to `a` a message that `a` never sent. -/
theorem not_confirmations_earned :
    ¬∀ s : Listener, Reachable Initial Step s → ∀ a b,
      (s.history.map fun e => e.confirmationsTo a b).sum ≤
        (s.history.map fun e => e.messagesTo a b).sum := by
  intro hall
  have hmorf : Reachable Initial Step (twoClients.serve 1 1 (Request.morf ['a']).render) :=
    serve_request (reaches_twoClients trivial trivial trivial trivial) 1 1 (.morf ['a'])
      (show '\r' ∉ ['a'] by decide) trivial (by decide) rfl rfl
  exact absurd (hall _ hmorf ['a'] ['b']) (by decide)

end Listener

end ME2U.Server
