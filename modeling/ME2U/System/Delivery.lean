import ME2U.System.Chats

/-!
# Whether a message is confirmed

The server hands a message on with `FROM`; the receiver's client answers with `MORF` and everything
that is behind `FROM`, the name of the sender and the message. The server takes all of that for a
name, finds nobody of that name, and confirms nothing.

* `effect_handleData`: what handling a frame of the clients does.
* `Sound`, `Sound.step`: what holds in every state: among others, that nothing is confirmed.
* `confirmed_iff`: messages are confirmed as the protocol has it iff there are none.
* `Chats.Initial.exists_requested`: a short message gets as far as its answer.
-/

namespace ME2U.System

open Client
open Server (Conn World User Sent)

/-! ## What the server does with it -/

section Handlers

variable {P : Pair} {w : World}

/-- A `FROM` tells its sender. -/
theorem isPrefix_fromFrame_iff {x y : Side} {m : Str} :
    encode (Verb.fromUser ++ ' ' :: (P.name x ++ [' '])) <+: fromFrame (P.name y) m ↔ x = y := by
  constructor
  · intro h
    obtain ⟨r, hr⟩ := isPrefix_of_encode_isPrefix h
    have hcut : P.name x ++ ' ' :: r = P.name y ++ ' ' :: (m ++ terminatingSequence) := by
      simpa [Server.ending, Verb.fromUser] using hr
    have hword := congrArg Server.receiver hcut
    rw [Server.receiver_append (P.notMem_name x (by decide)),
      Server.receiver_append (P.notMem_name y (by decide))] at hword
    exact P.name_inj hword
  · rintro rfl
    refine ⟨encode (m ++ terminatingSequence), ?_⟩
    unfold fromFrame
    rw [← encode_append]
    simp [Server.ending]

/-- The verb of a confirmation is of no other frame. -/
theorem encode_ne_otFrame {c : Char} (hc : c ≠ 'O') (t n : Str) :
    encode (c :: t) ≠ otFrame n := by
  intro h
  have h' : c :: t = Server.ending (Verb.ot ++ ' ' :: n) := encode_inj.mp h
  exact hc (List.cons.inj h').1

/-- What handling a request of `x` may do: it appends to what was sent; what goes to the two is
messages and `EDNE`, and no confirmation; and a message is handed on exactly when the request is one
of `x` for the other. -/
def Effect (P : Pair) (x : Side) (req : Option Str) (w w' : World) : Prop :=
  ∃ new, w' = { w with sent := w.sent ++ new } ∧
    (∀ y, ∀ f ∈ delivered (P.conn y) new, ServerFrame P f) ∧
    (∀ y, ∀ s ∈ new, ¬IsConfirmation P y (.sent s)) ∧
    ∀ y, (∃ s ∈ new, IsForward P y (.sent s)) ↔
      y = x ∧ ∃ newStr ∈ req, Addresses (P.name y.other) newStr

/-- A request that does not address the other user has no effect. -/
theorem Effect.nothing {x : Side} {req : Option Str}
    (h : ∀ newStr ∈ req, ¬Addresses (P.name x.other) newStr) : Effect P x req w w := by
  refine ⟨[], by simp, by simp, by simp, fun y => ?_⟩
  simp only [List.not_mem_nil, false_and, exists_false, false_iff, not_and]
  rintro rfl ⟨newStr, hmem, haddr⟩
  exact h newStr hmem haddr

/-- A message goes to an entry: it is handed on where that is the one of the other user. -/
theorem Effect.message {x : Side} {newStr msg : Str} {i : User} (hi : i ∈ P.users)
    (hmsg : '\r' ∉ msg ∧ '\x00' ∉ msg)
    (haddr : Addresses (P.name x.other) newStr ↔ i.name = P.name x.other) :
    Effect P x (some newStr) w (w.logged i.conn (fromFrame (P.name x) msg)) := by
  refine ⟨[⟨i.conn, fromFrame (P.name x) msg, w.isOpen i.conn⟩], rfl, ?_, ?_, ?_⟩
  · intro y f hf
    exact .inl ⟨x, msg, hmsg, eq_of_mem_delivered_singleton hf⟩
  · rintro y s hs ⟨-, hframe⟩
    obtain rfl := List.mem_singleton.mp hs
    exact encode_ne_otFrame (by decide) _ _ hframe
  · intro y
    simp only [List.mem_singleton, exists_eq_left, IsForward, isPrefix_fromFrame_iff,
      Option.mem_some_iff, exists_eq_left']
    constructor
    · rintro ⟨hconn, rfl⟩
      refine ⟨rfl, haddr.mpr ?_⟩
      rw [P.eq_entry_of_conn hi hconn]
      rfl
    · rintro ⟨rfl, hfor⟩
      refine ⟨?_, rfl⟩
      rw [P.eq_entry_of_name hi (haddr.mp hfor)]
      rfl

/-- An `EDNE` goes back, where the request was not for the other user. -/
theorem Effect.unknown {x : Side} {newStr n : Str} (hn : '\x00' ∉ n)
    (haddr : ¬Addresses (P.name x.other) newStr) :
    Effect P x (some newStr) w (w.logged (P.conn x) (edneFrame n)) := by
  refine ⟨[⟨P.conn x, edneFrame n, w.isOpen (P.conn x)⟩], rfl, ?_, ?_, ?_⟩
  · intro y f hf
    exact .inr (.inl ⟨n, hn, eq_of_mem_delivered_singleton hf⟩)
  · rintro y s hs ⟨-, hframe⟩
    obtain rfl := List.mem_singleton.mp hs
    exact encode_ne_otFrame (by decide) _ _ hframe
  · intro y
    simp only [List.mem_singleton, exists_eq_left, IsForward, Option.mem_some_iff, exists_eq_left']
    constructor
    · rintro ⟨-, hpre⟩
      obtain ⟨r, hr⟩ := isPrefix_of_encode_isPrefix hpre
      simp [Verb.fromUser, Verb.edne, Server.ending] at hr
    · rintro ⟨rfl, hfor⟩
      exact absurd hfor haddr

/-- The list of users goes back. -/
theorem Effect.listed {x : Side} (hu : w.users = P.users) :
    Effect P x (some Verb.listu) w (w.logged (P.conn x) (listReply w.users)) := by
  refine ⟨[⟨P.conn x, listReply w.users, w.isOpen (P.conn x)⟩], rfl, ?_, ?_, ?_⟩
  · intro y f hf
    rw [eq_of_mem_delivered_singleton hf, hu]
    exact .inr (.inr rfl)
  · rintro y s hs ⟨-, hframe⟩
    obtain rfl := List.mem_singleton.mp hs
    exact encode_ne_otFrame (by decide) _ _ hframe
  · intro y
    simp only [List.mem_singleton, exists_eq_left, IsForward, Option.mem_some_iff, exists_eq_left']
    constructor
    · rintro ⟨-, hpre⟩
      obtain ⟨r, hr⟩ := isPrefix_of_encode_isPrefix hpre
      simp [Verb.fromUser, Verb.utsil, Server.ending] at hr
    · rintro ⟨rfl, hto, -⟩
      exact absurd hto (by decide)

/-- Handling a `TO`. -/
theorem effect_dispatch_to (x : Side) {v : Str} (hv : '\r' ∉ v ∧ '\x00' ∉ v)
    (hu : w.users = P.users) :
    Effect P x (some (Verb.toUser ++ v)) w
      ((Server.dispatch (P.conn x) (P.addr x) (Verb.toUser ++ v)).run w).2 := by
  have htake : (Verb.toUser ++ v).take 2 = Verb.toUser := rfl
  have hreg : Server.getNameFromAddr w.users (P.addr x) = some (P.name x) := by
    rw [hu, P.getNameFromAddr_addr]
  rcases Server.run_dispatch_to_snd (P.conn x) (P.addr x) w htake with
    ⟨hrun, hnone⟩ | ⟨name, msg, hdrop, hname, hcases⟩
  · rw [hrun]
    refine .nothing fun newStr hmem haddr => ?_
    obtain rfl := Option.some.inj hmem
    obtain ⟨-, m, hm⟩ := haddr
    rcases hnone with hfree | hnone
    · exact hfree (by simp [hm])
    · simp [hreg] at hnone
  · have hsub : ∀ c, c ∈ name ∨ c ∈ msg → c ∈ v := by
      intro c hc
      have hmem : c ∈ (Verb.toUser ++ v).drop 3 := by
        rw [hdrop, List.mem_append, List.mem_cons]
        exact hc.imp_right .inr
      have hmem' : c ∈ v.drop 1 := hmem
      exact List.mem_of_mem_drop hmem'
    -- the request is for the other one when the name in it is
    have haddr : Addresses (P.name x.other) (Verb.toUser ++ v) ↔ name = P.name x.other := by
      constructor
      · rintro ⟨-, m, hm⟩
        have hword := congrArg Server.receiver (hdrop.symm.trans hm)
        rwa [Server.receiver_append hname,
          Server.receiver_append (P.notMem_name _ (by decide))] at hword
      · rintro rfl
        exact ⟨htake, msg, hdrop⟩
    rcases hcases with ⟨i, s, hfind, hs, hrun⟩ | ⟨hfind, hrun⟩
    · obtain rfl := Option.some.inj (hreg.symm.trans hs)
      rw [hu] at hfind
      have hiname : i.name = name := by simpa using List.find?_some hfind
      rw [hrun]
      apply Effect.message (List.mem_of_find?_eq_some hfind)
      · exact ⟨fun h => hv.1 (hsub _ (.inr h)), fun h => hv.2 (hsub _ (.inr h))⟩
      · rw [haddr, hiname]
    · rw [hrun]
      apply Effect.unknown fun h => hv.2 (hsub _ (.inl h))
      intro hfor
      rw [hu, haddr.mp hfor, P.find?_name] at hfind
      cases hfind

/-- A `MORF` as the clients write it is answered to neither of the two: nobody is named like
that. -/
theorem run_dispatch_morf (x y : Side) (m : Str) (hu : w.users = P.users) :
    ∃ new, ((Server.dispatch (P.conn x) (P.addr x)
        (Verb.morf ++ ' ' :: (P.name y ++ ' ' :: m))).run w).2 = { w with sent := w.sent ++ new } ∧
      ∀ z, ∀ s ∈ new, s.conn ≠ P.conn z := by
  have htake : (Verb.morf ++ ' ' :: (P.name y ++ ' ' :: m)).take 4 = Verb.morf := rfl
  rw [Server.dispatch_of_take_morf (P.conn x) (P.addr x) htake, Eff.run_get_bind]
  obtain ⟨new, hrun, hnew⟩ := Server.run_sendOtToUsr_snd w.users
    ((Verb.morf ++ ' ' :: (P.name y ++ ' ' :: m)).drop 5)
      (Server.getNameFromAddr w.users (P.addr x)) w
  refine ⟨new, ?_, fun z s hs heq => ?_⟩
  · rw [Eff.run_bind, ← hrun]
    rcases (Server.sendOtToUsr w.users _ _).run w with ⟨e | u, w'⟩ <;> rfl
  · obtain ⟨i, hi, hname, hconn⟩ := hnew s hs
    rw [hu] at hi
    have hiz : i.name = P.name z := by
      rw [P.eq_entry_of_conn hi (hconn.symm.trans heq)]
      rfl
    have hspace : ' ' ∈ P.name z := by
      rw [← hiz, hname]
      simp [Verb.morf]
    exact P.notMem_name z (by decide) hspace

/-- Frames that are sent to neither of the two. -/
theorem delivered_eq_nil {conn : Conn} {new : List Sent} (h : ∀ s ∈ new, s.conn ≠ conn) :
    delivered conn new = [] := by
  unfold delivered
  rw [List.map_eq_nil_iff, List.filter_eq_nil_iff]
  intro s hs hc
  simp only [Bool.and_eq_true, beq_iff_eq] at hc
  exact h s hs hc.1

/-- Handling a `MORF`. -/
theorem effect_dispatch_morf (x y : Side) (m : Str) (hu : w.users = P.users) :
    Effect P x (some (Verb.morf ++ ' ' :: (P.name y ++ ' ' :: m))) w
      ((Server.dispatch (P.conn x) (P.addr x)
        (Verb.morf ++ ' ' :: (P.name y ++ ' ' :: m))).run w).2 := by
  obtain ⟨new, hrun, hnobody⟩ := run_dispatch_morf x y m hu
  refine ⟨new, hrun, ?_, ?_, ?_⟩
  · intro z f hf
    rw [delivered_eq_nil (hnobody z)] at hf
    cases hf
  · rintro z s hs ⟨hconn, -⟩
    exact hnobody z s hs hconn
  · intro z
    constructor
    · rintro ⟨s, hs, hconn, -⟩
      exact absurd hconn (hnobody z.other s hs)
    · rintro ⟨-, newStr, hmem, hto, -⟩
      obtain rfl := Option.some.inj hmem
      exact absurd hto (by simp [Verb.morf, Verb.toUser])

/-- The request string of a verb, a name and a text. -/
theorem requestString_request (y : Side) {v m : Str} (hv : '\r' ∉ v) (hm : '\r' ∉ m) :
    Server.requestString (wire (v ++ ' ' :: (P.name y ++ ' ' :: m))) =
      some (v ++ ' ' :: (P.name y ++ ' ' :: m)) := by
  apply Server.requestString_wire_of_notMem
  simp only [List.mem_append, List.mem_cons, not_or]
  exact ⟨hv, by decide, P.notMem_name y (by decide), by decide, hm⟩

/-- The request string of a `TO` frame. -/
theorem requestString_to {t : Bytes} (h0 : 0 ∉ t) (hcr : 13 ∉ t) :
    Server.requestString (msgTo ++ t ++ Client.ending) = none ∨
      ∃ v, ('\r' ∉ v ∧ '\x00' ∉ v) ∧
        Server.requestString (msgTo ++ t ++ Client.ending) = some (Verb.toUser ++ v) := by
  cases hdec : decode (msgTo ++ t ++ Client.ending) with
  | none => exact .inl (by rw [Server.requestString, hdec]; rfl)
  | some u =>
      have hbytes := decode_eq_some_iff.mp hdec
      rw [List.append_assoc] at hbytes
      obtain ⟨u', rfl, hrest⟩ := exists_of_encode_append_eq (s := Verb.toUser) hbytes
      rw [ending_eq] at hrest
      obtain ⟨v, rest, rfl, ht, hnil⟩ := encode_eq_append_ascii_append (y := [])
        terminatingSequence_ascii terminatingSequence_ne_nil (by rw [List.append_nil, ← hrest])
      obtain rfl := encode_eq_nil.mp hnil.symm
      have hv : '\r' ∉ v ∧ '\x00' ∉ v := by
        refine ⟨fun h => hcr ?_, fun h => h0 ?_⟩ <;> rw [ht]
        · exact cr_mem_encode.mpr h
        · exact zero_mem_encode.mpr h
      refine .inr ⟨v, hv, ?_⟩
      have hwire : msgTo ++ t ++ Client.ending = wire (Verb.toUser ++ v) := by
        rw [wire_eq, encode_append, ← ht, ending_eq]
        rfl
      rw [hwire]
      apply Server.requestString_wire_of_notMem
      rw [List.mem_append, not_or]
      exact ⟨by decide, hv.1⟩

/-- **Handling what a client wrote.** -/
theorem effect_handleData (x : Side) {data : Bytes} (hdata : ClientFrame P data)
    (hu : w.users = P.users) (hopen : w.isOpen (P.conn x) = true) :
    Effect P x (Server.requestString data) w
      ((Server.handleData (P.conn x) (P.addr x) data).run w).2 := by
  rcases hdata with ⟨t, h0, hcr, rfl⟩ | ⟨y, m, hm, rfl⟩ | rfl
  · rcases requestString_to h0 hcr with hnone | ⟨v, hv, hsome⟩
    · unfold Server.handleData
      rw [hnone]
      exact .nothing (by simp)
    · unfold Server.handleData
      rw [hsome]
      exact effect_dispatch_to x hv hu
  · unfold Server.handleData
    rw [requestString_request y (by decide) hm]
    exact effect_dispatch_morf x y m hu
  · have hsome : Server.requestString (wire Verb.listu) = some Verb.listu :=
      Server.requestString_wire_of_notMem (by decide)
    unfold Server.handleData
    rw [hsome]
    have hrun : (Server.dispatch (P.conn x) (P.addr x) Verb.listu).run w = _ :=
      run_dispatch_listu hopen (P.addr x)
    dsimp only
    rw [hrun]
    exact .listed hu

end Handlers

/-! ## Every state -/

/-- The server took a message of `x` for the other user. -/
def Requested (P : Pair) (x : Side) (history : List Happening) : Prop :=
  ∃ newStr, .received x (some newStr) ∈ history ∧ Addresses (P.name x.other) newStr

/-- What holds in every state: nobody leaves the registry, no client that goes on has anything
pending but the beginning of a list of users, what is on its way is of the frames above, nothing was
confirmed, and a message was handed on iff there was one. -/
structure Sound (P : Pair) (s : Chats) : Prop where
  users : s.world.users = P.users
  isOpen : ∀ x, s.world.isOpen (P.conn x) = true
  pending : ∀ x, s.halted x = false → Pending (s.client x).buf
  toServer : ∀ x, ∀ f ∈ s.toServer x, ClientFrame P f
  toClient : ∀ x, ∀ f ∈ s.toClient x, ServerFrame P f
  unconfirmed : ∀ x, ∀ e ∈ s.history, ¬IsConfirmation P x e
  forwarded : ∀ x, (∃ e ∈ s.history, IsForward P x e) ↔ Requested P x s.history

/-- At the start nothing has happened. -/
theorem Chats.Initial.sound {P : Pair} {s : Chats} (h : s.Initial P) : Sound P s where
  users := h.users
  isOpen := h.isOpen
  pending := fun x _ => by
    rw [h.client x]
    exact pending_nil
  toServer := fun x => by simp [h.toServer x]
  toClient := fun x => by simp [h.toClient x]
  unconfirmed := fun x => by simp [h.history]
  forwarded := fun x => by simp [h.history, Requested]

namespace Sound

variable {P : Pair} {s : Chats} {x : Side}

/-- A client that ran as it does on a line or a frame. -/
theorem ofClient {r : Except Halt Next × Process} (h : Sound P s) {b : RecvBuf}
    (hr : Follows P ((s.client x).withBuf b) r.2)
    (hpending : ∀ next, r.1 = .ok next → Pending r.2.buf) :
    Sound P (s.ofClient x r) := by
  obtain ⟨-, ws, hws, hall⟩ := hr
  replace hws : r.2.wrote = (s.client x).wrote ++ ws := hws
  refine { h with pending := fun y hy => ?_, toServer := fun y f hf => ?_ }
  · by_cases hyx : y = x
    · subst hyx
      simp only [Chats.ofClient, Function.update_self] at hy ⊢
      rcases hnext : r.1 with e | next
      · rw [hnext] at hy
        cases hy
      · exact hpending next hnext
    · simp only [Chats.ofClient, Function.update_of_ne hyx] at hy ⊢
      exact h.pending y hy
  · by_cases hy : y = x
    · subst hy
      simp only [Chats.ofClient, Function.update_self, hws, newly_append, List.mem_append] at hf
      exact hf.elim (h.toServer y f) (hall f)
    · simp only [Chats.ofClient, Function.update_of_ne hy] at hf
      exact h.toServer y f hf

/-- A handler that handled a frame of its client. -/
theorem ofServer {data : Bytes} {rest : List Bytes}
    {r : Except Server.PyExc Server.LoopCtl × World} (h : Sound P s)
    (hrest : ∀ f ∈ rest, ClientFrame P f)
    (hr : Effect P x (Server.requestString data) s.world r.2) :
    Sound P (s.ofServer P x data rest r) := by
  obtain ⟨new, hw, hframes, hconfirms, hforwards⟩ := hr
  have hnew : newly s.world.sent r.2.sent = new := by simp [hw]
  refine ⟨by simp [Chats.ofServer, hw, h.users], fun y => ?_, h.pending, fun y f hf => ?_,
    fun y f hf => ?_, fun y e he => ?_, fun y => ?_⟩
  · simpa [Chats.ofServer, hw] using h.isOpen y
  · by_cases hy : y = x
    · subst hy
      simp only [Chats.ofServer, Function.update_self] at hf
      exact hrest f hf
    · simp only [Chats.ofServer, Function.update_of_ne hy] at hf
      exact h.toServer y f hf
  · simp only [Chats.ofServer, hnew, List.mem_append] at hf
    exact hf.elim (h.toClient y f) (hframes y f)
  · simp only [Chats.ofServer, hnew, List.mem_append, List.mem_cons, List.mem_map] at he
    rcases he with he | rfl | ⟨t, ht, rfl⟩
    · exact h.unconfirmed y e he
    · exact not_false
    · exact hconfirms y t ht
  · -- what is new in the history is one request and what it made the server send
    have hreq : Requested P y (s.ofServer P x data rest r).history ↔ Requested P y s.history ∨
        y = x ∧ ∃ newStr ∈ Server.requestString data, Addresses (P.name y.other) newStr := by
      simp only [Requested, Chats.ofServer, List.mem_append, List.mem_cons, List.mem_map]
      constructor
      · rintro ⟨newStr, hmem | heq | ⟨t, -, ht⟩, haddr⟩
        · exact .inl ⟨newStr, hmem, haddr⟩
        · obtain ⟨rfl, hsome⟩ := Happening.received.inj heq
          exact .inr ⟨rfl, newStr, hsome.symm, haddr⟩
        · cases ht
      · rintro (⟨newStr, hmem, haddr⟩ | ⟨rfl, newStr, hsome, haddr⟩)
        · exact ⟨newStr, .inl hmem, haddr⟩
        · exact ⟨newStr, .inr (.inl (by rw [Option.mem_def.mp hsome])), haddr⟩
    rw [hreq, ← h.forwarded y, ← hforwards y]
    simp only [Chats.ofServer, hnew, List.mem_append, List.mem_cons, List.mem_map]
    constructor
    · rintro ⟨e, he | rfl | ⟨t, ht, rfl⟩, hfor⟩
      · exact .inl ⟨e, he, hfor⟩
      · exact hfor.elim
      · exact .inr ⟨t, ht, hfor⟩
    · rintro (⟨e, he, hfor⟩ | ⟨t, ht, hfor⟩)
      · exact ⟨e, .inl he, hfor⟩
      · exact ⟨.sent t, .inr (.inr ⟨t, ht, rfl⟩), hfor⟩

/-- **Every step keeps it.** -/
theorem step {slack : Slack} {e : ChatEvent} {s' : Chats} (h : Sound P s)
    (hst : Chats.Step P slack s e s') :
    Sound P s' := by
  unfold Chats.Step Chats.step at hst
  cases e with
  | input x line =>
      dsimp only at hst
      split_ifs at hst with hc
      obtain rfl := Option.some.inj hst
      obtain ⟨hgoes, -, h0, hcr, hlen, hstay⟩ := hc
      have hfollows := follows_chatInput (P := P) slack h0 hcr hlen hstay (s.client x)
      refine h.ofClient (b := (s.client x).buf) hfollows fun _ _ => ?_
      rw [hfollows.1]
      exact h.pending x hgoes
  | serve x =>
      dsimp only at hst
      split at hst
      · cases hst
      · next data rest hq =>
          split_ifs at hst with hc
          obtain rfl := Option.some.inj hst
          have hall := h.toServer x
          rw [hq, List.forall_mem_cons] at hall
          exact h.ofServer hall.2 (effect_handleData x hall.1 h.users (h.isOpen x))
  | deliver x =>
      dsimp only at hst
      split at hst
      · cases hst
      · next f rest hq =>
          split_ifs at hst with hc
          obtain rfl := Option.some.inj hst
          have hall := h.toClient x
          rw [hq, List.forall_mem_cons] at hall
          have hread : Sound P { s with toClient := Function.update s.toClient x rest } := by
            refine { h with toClient := fun y g hg => ?_ }
            by_cases hy : y = x
            · subst hy
              simp only [Function.update_self] at hg
              exact hall.2 g hg
            · simp only [Function.update_of_ne hy] at hg
              exact h.toClient y g hg
          obtain ⟨⟨b, hfollows⟩, hpending⟩ := follows_chatRead slack hall.1 hc.2 (h.pending x hc.1)
          exact hread.ofClient hfollows hpending

/-- **Every state that is reached.** -/
theorem of_reachable {slack : Slack} (h : Reachable (Chats.Initial P) (Chats.Step P slack) s) :
    Sound P s :=
  h.invariant (fun _ hs => hs.sound) fun _ _ _ hs _ hst => hs.step hst

/-- Nothing is confirmed in any part of the history. -/
theorem countP_confirmations (h : Sound P s) {hist : List Happening} (hpre : hist <+: s.history)
    (x : Side) : hist.countP (IsConfirmation P x) = 0 :=
  List.countP_eq_zero.mpr fun e he => by simpa using h.unconfirmed x e (hpre.subset he)

/-- Nothing confirms, so the counts agree where nothing was handed on. -/
theorem countP_eq_iff (h : Sound P s) (x : Side) :
    s.history.countP (IsConfirmation P x) = s.history.countP (IsForward P x) ↔
      ¬Requested P x s.history := by
  rw [h.countP_confirmations (List.prefix_refl _), ← h.forwarded x, eq_comm, List.countP_eq_zero]
  simp

end Sound

/-! ## A message and its reply -/

section Hops

variable {P : Pair}

theorem length_fromFrame_lt {n m : Str} (h : (encode n ++ 32 :: encode m).length ≤ 30) :
    (fromFrame n m).length < maxline := by
  have h₁ : msgFrom.length = 4 := by decide
  have h₂ : Client.ending.length = 4 := by decide
  have h₃ : maxline = 5120 := rfl
  rw [fromFrame_eq, List.length_append, List.length_append, List.length_cons]
  omega

/-- A client files a message of a user and answers it. -/
theorem run_chatRead_from {slack : Slack} (hslack : ∀ blk, slack blk ≠ 0) {c : Process}
    (hc : ∀ u ∈ c.users, 0 ∉ u.username) (hbuf : c.buf = .of []) (y : Side) {m : Str}
    (hm : '\r' ∉ m ∧ '\x00' ∉ m) (hlen : (encode (P.name y) ++ 32 :: encode m).length ≤ 30) :
    ∃ n, (chatRead slack (fromFrame (P.name y) m)).run c =
      (.ok .again, { c.withUser (encode (P.name y)) with
        wrote := c.wrote ++ [(.pipe n, encode m)] ++
          [(.sock, wire (Verb.morf ++ ' ' :: (P.name y ++ ' ' :: m)))] }) := by
  have hword : IsWord (encode (P.name y)) := isWord_encode_iff.mpr (P.oneWord y)
  have hbody := zero_notMem_fromBody (P.oneWord y) hm
  have h0 := zero_notMem_fromText (P.oneWord y) hm
  obtain ⟨u, -, -, hfiled⟩ :=
    run_processMsg hc hword (mt zero_mem_encode.mp hm.2) (k := 4) (by decide)
    (not_overread hslack _ _)
  have hframe := length_fromFrame_lt hlen
  rw [fromFrame_eq] at hframe ⊢
  refine ⟨u.wrt, ?_⟩
  rw [run_chatRead_frame slack hbody hframe hbuf, run_serverFrame_from,
    Eff.run_bind_ok hfiled, Eff.run_bind, run_confirmFrom h0 (by decide), if_pos hlen]
  rw [morf_eq_wire]
  rfl

/-- The server hands on a message of one of the two. -/
theorem run_handleData_to {w : World} (hu : w.users = P.users)
    (hopen : ∀ y, w.isOpen (P.conn y) = true) (x y : Side) {m : Str} (hm : '\r' ∉ m) :
    (Server.handleData (P.conn x) (P.addr x)
        (wire (Verb.toUser ++ ' ' :: (P.name y ++ ' ' :: m)))).run w =
      (.ok .again, w.logged (P.conn y) (fromFrame (P.name x) m)) := by
  have hreg : Server.getNameFromAddr w.users (P.addr x) = some (P.name x) := by
    rw [hu, P.getNameFromAddr_addr]
  have hdrop : (Verb.toUser ++ ' ' :: (P.name y ++ ' ' :: m)).drop 3 = P.name y ++ ' ' :: m := rfl
  have hspace := P.notMem_name y (c := ' ') (by decide)
  unfold Server.handleData
  rw [requestString_request y (by decide) hm]
  dsimp only
  rw [Server.dispatch_of_take_toUser (P.conn x) (P.addr x) rfl, hdrop,
    Server.splitOnce_of_notMem hspace, Eff.run_pure_bind, Eff.run_get_bind, hreg, hu,
    Eff.run_bind, Server.run_findUserToSendMsgTo_of_find (P.find?_name y)]
  dsimp only
  rw [if_pos (show w.isOpen (P.entry y).conn = true from hopen y)]
  rfl

/-- The line that sends a message to a user. -/
def chatLine (n m : Str) : Bytes := userChat ++ 32 :: (encode n ++ 32 :: encode m)

/-- The `TO` is one byte longer than the line. -/
theorem length_wire_to (n m : Str) :
    (wire (Verb.toUser ++ ' ' :: (n ++ ' ' :: m))).length = (chatLine n m).length + 1 := by
  have hcmd : userChat.length = 5 := by decide
  have hverb : msgTo.length = 2 := by decide
  have hend : Client.ending.length = 4 := by decide
  rw [← to_eq_wire, chatLine, List.length_append, List.length_append, List.length_append]
  omega

/-- A control character is in the line only if it is in the message. -/
theorem notMem_chatLine (y : Side) {m : Str} {c : Char} (hc : c.toNat < 32) (hm : c ∉ m) :
    ascii c ∉ chatLine (P.name y) m := by
  have hascii : IsAscii c := hc.trans (by decide)
  have hspace : ascii c ≠ 32 := by
    intro heq
    have hnat : c.toNat = 32 := by rw [← toNat_ascii hascii, heq]; rfl
    omega
  have hcommand : c ∉ ['/', 'c', 'h', 'a', 't'] := by
    have hall : ∀ d ∈ ['/', 'c', 'h', 'a', 't'], ¬d.toNat < 32 := by decide
    exact fun hmem => hall c hmem hc
  rw [chatLine, userChat]
  rw [List.mem_append, List.mem_cons, List.mem_append, List.mem_cons, ascii_mem_encode hascii,
    ascii_mem_encode hascii, ascii_mem_encode hascii, not_or, not_or, not_or, not_or]
  exact ⟨hcommand, hspace, P.notMem_name y hc.le, hspace, hm⟩

/-- It is no `/logout`. -/
theorem command_chatLine (n m : Str) :
    (command (readBuf (chatLine n m))).toOption.join ≠ some .logout := by
  have hword : IsWord (47 :: userChat.tail) := by decide
  have hpick : command (readBuf (chatLine n m)) = .ok (some .chat) := by
    unfold chatLine readBuf
    rw [textBlock_word]
    exact command_cells hword (by decide) _
  rw [hpick]
  decide

variable {slack : Slack} {s : Chats} {x y : Side} {m : Str}

/-- The message is typed. -/
theorem exists_step_input (hslack : ∀ blk, slack blk ≠ 0) (hm : '\r' ∉ m ∧ '\x00' ∉ m)
    (hhalted : s.halted x = false) (hnames : ∀ u ∈ (s.client x).users, 0 ∉ u.username)
    (hlen : (chatLine (P.name y) m).length < maxline) :
    ∃ c s', Chats.Step P slack s (.input x (chatLine (P.name y) m)) s' ∧ s' = { s with
      client := Function.update s.client x c
      halted := Function.update s.halted x false
      toServer := Function.update s.toServer x
        (s.toServer x ++ [wire (Verb.toUser ++ ' ' :: (P.name y ++ ' ' :: m))]) } := by
  obtain ⟨u, -, -, hinput⟩ := run_chatInput_chat hslack hnames (isWord_encode_iff.mpr (P.oneWord y))
    (mt zero_mem_encode.mp hm.2) hlen
  rw [to_eq_wire] at hinput
  have hcond : s.halted x = false ∧ chatLine (P.name y) m ≠ [] ∧ 0 ∉ chatLine (P.name y) m ∧
      13 ∉ chatLine (P.name y) m ∧ (chatLine (P.name y) m).length < maxline ∧
        (command (readBuf (chatLine (P.name y) m))).toOption.join ≠ some .logout :=
    ⟨hhalted, by simp [chatLine], notMem_chatLine (c := '\x00') y (by decide) hm.2,
      notMem_chatLine (c := '\r') y (by decide) hm.1, hlen, command_chatLine _ _⟩
  refine ⟨((chatInput slack (readBuf (chatLine (P.name y) m))).run (s.client x)).2,
    _, if_pos hcond, ?_⟩
  simp only [Chats.ofClient, chatLine, hinput]
  simp [sockWrites]

/-- The message is handed on. -/
theorem exists_step_serve_to (slack : Slack) (hu : s.world.users = P.users)
    (hopen : ∀ z, s.world.isOpen (P.conn z) = true) (hserving : s.serving x = true)
    {rest : List Bytes}
    (hq : s.toServer x = wire (Verb.toUser ++ ' ' :: (P.name y ++ ' ' :: m)) :: rest)
    (hm : '\r' ∉ m) (hlen : (chatLine (P.name y) m).length < 4096) :
    ∃ s', Chats.Step P slack s (.serve x) s' ∧ s' = { s with
      world := s.world.logged (P.conn y) (fromFrame (P.name x) m)
      serving := Function.update s.serving x true
      toServer := Function.update s.toServer x rest
      toClient := Function.update s.toClient y (s.toClient y ++ [fromFrame (P.name x) m])
      history := s.history ++ [.received x (some (Verb.toUser ++ ' ' :: (P.name y ++ ' ' :: m))),
        .sent ⟨P.conn y, fromFrame (P.name x) m, true⟩] } := by
  have hrun := run_handleData_to hu hopen x y hm
  have hclient : (fun z => s.toClient z ++ delivered (P.conn z)
    [⟨P.conn y, fromFrame (P.name x) m, true⟩]) =
      Function.update s.toClient y (s.toClient y ++ [fromFrame (P.name x) m]) := by
    funext z
    by_cases hz : z = y
    · subst hz
      simp [delivered]
    · have hne : P.conn y ≠ P.conn z := fun heq => hz (P.conn_inj heq).symm
      simp [delivered, hz, hne]
  unfold Chats.Step Chats.step
  simp only [hq]
  refine ⟨_, if_pos ⟨hserving, by rw [length_wire_to]; omega⟩, ?_⟩
  simp only [Chats.ofServer, hrun, Server.World.logged_sent, newly_append, hopen y, hclient]
  rw [requestString_request y (by decide) hm]
  rfl

/-- It is filed and answered. -/
theorem exists_step_deliver (hslack : ∀ blk, slack blk ≠ 0) (hm : '\r' ∉ m ∧ '\x00' ∉ m)
    (hhalted : s.halted x = false) (hnames : ∀ u ∈ (s.client x).users, 0 ∉ u.username)
    (hbuf : (s.client x).buf = .of []) {rest : List Bytes}
    (hq : s.toClient x = fromFrame (P.name y) m :: rest)
    (hlen : (encode (P.name y) ++ 32 :: encode m).length ≤ 30) :
    ∃ c s', Chats.Step P slack s (.deliver x) s' ∧ s' = { s with
      client := Function.update s.client x c
      halted := Function.update s.halted x false
      toServer := Function.update s.toServer x
        (s.toServer x ++ [wire (Verb.morf ++ ' ' :: (P.name y ++ ' ' :: m))])
      toClient := Function.update s.toClient x rest } := by
  obtain ⟨n, hrun⟩ := run_chatRead_from hslack hnames hbuf y hm hlen
  unfold Chats.Step Chats.step
  simp only [hq]
  refine ⟨((chatRead slack (fromFrame (P.name y) m)).run (s.client x)).2, _,
    if_pos ⟨hhalted, length_fromFrame_lt hlen⟩, ?_⟩
  simp only [Chats.ofClient, hrun]
  simp [sockWrites]

/-- The answer names nobody. -/
theorem exists_step_serve_morf (slack : Slack) (hu : s.world.users = P.users)
    (hserving : s.serving x = true)
    {rest : List Bytes}
    (hq : s.toServer x = wire (Verb.morf ++ ' ' :: (P.name y ++ ' ' :: m)) :: rest)
    (hm : '\r' ∉ m) (hlen : (encode (P.name y) ++ 32 :: encode m).length ≤ 30) :
    ∃ s', Chats.Step P slack s (.serve x) s' ∧ s'.toServer = Function.update s.toServer x rest ∧
      s'.toClient = s.toClient ∧ s.history ⊆ s'.history := by
  have hframe : (wire (Verb.morf ++ ' ' :: (P.name y ++ ' ' :: m))).length ≤ 4096 := by
    have h₁ : confirmMsgFrom.length = 4 := by decide
    have h₂ : Client.ending.length = 4 := by decide
    rw [← morf_eq_wire, List.length_append, List.length_cons, List.length_append]
    omega
  obtain ⟨new, hrun, hnobody⟩ := run_dispatch_morf x y m hu
  unfold Chats.Step Chats.step
  simp only [hq]
  refine ⟨_, if_pos ⟨hserving, hframe⟩, rfl, ?_, List.subset_append_left _ _⟩
  have hworld : ((Server.handleData (P.conn x) (P.addr x)
      (wire (Verb.morf ++ ' ' :: (P.name y ++ ' ' :: m)))).run s.world).2 =
        { s.world with sent := s.world.sent ++ new } := by
    unfold Server.handleData
    rw [requestString_request y (by decide) hm]
    exact hrun
  funext z
  simp only [Chats.ofServer, hworld, newly_append, delivered_eq_nil (hnobody z), List.append_nil]

/-- The first message, of one to the other, is handed on, and is all that is on its way. -/
structure Chats.Forwarded (P : Pair) (m : Str) (s : Chats) : Prop where
  users : s.world.users = P.users
  serving : ∀ x, s.serving x = true
  halted : ∀ x, s.halted x = false
  client : s.client .b = Process.initial
  toServer : ∀ x, s.toServer x = []
  toClient : s.toClient = Function.update (fun _ => []) .b [fromFrame (P.name .a) m]
  received : .received .a (some (Verb.toUser ++ ' ' :: (P.name .b ++ ' ' :: m))) ∈ s.history

/-- What is forwarded was requested. -/
theorem Chats.Forwarded.requested (h : s.Forwarded P m) : Requested P .a s.history :=
  ⟨_, h.received, rfl, m, rfl⟩

/-- It gets there from the start. -/
theorem Chats.Initial.exists_forwarded (h : s.Initial P) (hslack : ∀ blk, slack blk ≠ 0)
    (hm : '\r' ∉ m ∧ '\x00' ∉ m) (hlen : (chatLine (P.name .b) m).length < 4096) :
    ∃ s', Reachable (Chats.Initial P) (Chats.Step P slack) s' ∧ s'.Forwarded P m := by
  have hnames : ∀ u ∈ (s.client .a).users, 0 ∉ u.username := by simp [h.client, Process.initial]
  obtain ⟨c₁, s₁, hstep₁, hs₁⟩ := exists_step_input (P := P) (y := .b) hslack hm (h.halted .a)
    hnames (hlen.trans (by decide))
  have hq₁ : s₁.toServer .a = [wire (Verb.toUser ++ ' ' :: (P.name .b ++ ' ' :: m))] := by
    simp [hs₁, h.toServer]
  obtain ⟨s₂, hstep₂, hs₂⟩ := exists_step_serve_to slack (by simp [hs₁, h.users])
    (by simp [hs₁, h.isOpen]) (by simp [hs₁, h.serving]) hq₁ hm.1 hlen
  refine ⟨s₂, (Reachable.next (.start h) hstep₁).next hstep₂, ?_, ?_, ?_, ?_, ?_, ?_, ?_⟩
  · simp [hs₂, hs₁, h.users]
  · rintro (_ | _) <;> simp [hs₂, hs₁, h.serving]
  · rintro (_ | _) <;> simp [hs₂, hs₁, h.halted]
  · simp [hs₂, hs₁, h.client]
  · rintro (_ | _) <;> simp [hs₂, hs₁, h.toServer]
  · funext x
    cases x <;> simp [hs₂, hs₁, h.toClient]
  · simp [hs₂]

/-- **A message is handed on and answered, and not confirmed**, from the first one on. -/
theorem Chats.Initial.exists_requested (h : s.Initial P) (hslack : ∀ blk, slack blk ≠ 0)
    (hm : '\r' ∉ m ∧ '\x00' ∉ m) (hshort : (encode (P.name .a) ++ 32 :: encode m).length ≤ 30)
    (hlen : (chatLine (P.name .b) m).length < 4096) :
    ∃ s', Reachable (Chats.Initial P) (Chats.Step P slack) s' ∧ s'.Quiet ∧
      Requested P .a s'.history := by
  obtain ⟨s₂, hreach, hs₂⟩ := h.exists_forwarded hslack hm hlen
  have hq₂ : s₂.toClient .b = [fromFrame (P.name .a) m] := by simp [hs₂.toClient]
  obtain ⟨c₃, s₃, hstep₃, hs₃⟩ := exists_step_deliver hslack hm (hs₂.halted .b)
    (by simp [hs₂.client, Process.initial]) (by rw [hs₂.client]; rfl) hq₂ hshort
  have hq₃ : s₃.toServer .b = [wire (Verb.morf ++ ' ' :: (P.name .a ++ ' ' :: m))] := by
    simp [hs₃, hs₂.toServer]
  obtain ⟨s₄, hstep₄, hserver, hclient, hhist⟩ := exists_step_serve_morf slack
    (by simp [hs₃, hs₂.users]) (by simp [hs₃, hs₂.serving]) hq₃ hm.1 hshort
  refine ⟨s₄, (hreach.next hstep₃).next hstep₄, fun x => ?_, ?_⟩
  · rw [hserver, hclient]
    cases x <;> simp [hs₃, hs₂.toServer, hs₂.toClient]
  · have hmem : .received .a (some (Verb.toUser ++ ' ' :: (P.name .b ++ ' ' :: m))) ∈
        s₃.history := by
      simpa [hs₃] using hs₂.received
    exact ⟨_, hhist hmem, rfl, m, rfl⟩

end Hops

/-! ## When messages are confirmed -/

/-- **Messages are confirmed as the protocol has it iff there are none**: once the server has
received a message of one user for the other, the confirmation never comes. -/
theorem confirmed_iff (P : Pair) (slack : Slack) (s : Chats)
    (h : Reachable (Chats.Initial P) (Chats.Step P slack) s) :
    Confirmed P s ↔ (s.Quiet → ∀ x, ¬Requested P x s.history) := by
  have hsound := Sound.of_reachable h
  constructor
  · intro hconf hq x
    exact (hsound.countP_eq_iff x).mp (hconf.2 hq x)
  · intro hnone
    refine ⟨fun hist hpre x => ?_, fun hq x => (hsound.countP_eq_iff x).mpr (hnone hq x)⟩
    rw [hsound.countP_confirmations hpre]
    exact Nat.zero_le _

/-- The users `a` and `b`, alone. -/
def twoUsers : Pair where
  name | .a => ['a'] | .b => ['b']
  conn | .a => 0 | .b => 1
  addr | .a => 0 | .b => 1
  users := [⟨['a'], 0, 0⟩, ⟨['b'], 1, 1⟩]
  entry_mem x := by cases x <;> simp
  names_nodup := by decide
  conns_nodup := by decide
  addrs_nodup := by decide
  name_ne := by decide
  name_ne_nil x := by cases x <;> decide
  printable x := by cases x <;> decide

/-- Two that have just logged in. -/
def Chats.initial (P : Pair) : Chats :=
  { world := ⟨P.users, fun _ => true, []⟩
    client := fun _ => Process.initial
    halted := fun _ => false
    serving := fun _ => true
    toServer := fun _ => []
    toClient := fun _ => []
    history := [] }

theorem Chats.initial_initial (P : Pair) : (Chats.initial P).Initial P := by
  constructor <;> intros <;> rfl

/-- While a message is on its way to `b`, nothing is missing. -/
theorem confirmed_on_its_way : ∃ s : Chats,
    Reachable (Chats.Initial twoUsers) (Chats.Step twoUsers fun _ => 8) s ∧
      s.toClient .b = [fromFrame ['a'] ['h', 'i']] ∧ Requested twoUsers .a s.history ∧
        Confirmed twoUsers s := by
  have hslack : ∀ blk : Block, (fun _ => 8 : Slack) blk ≠ 0 := fun _ => Nat.succ_ne_zero 7
  obtain ⟨s, hreach, hs⟩ :=
    (Chats.initial_initial twoUsers).exists_forwarded (m := ['h', 'i']) hslack
    (by decide) (by decide)
  have hclient : s.toClient .b = [fromFrame ['a'] ['h', 'i']] := by
    rw [hs.toClient, Function.update_self]
    rfl
  refine ⟨s, hreach, hclient, hs.requested, (confirmed_iff twoUsers _ s hreach).mpr fun hquiet =>
    ?_⟩
  rcases (hquiet .b).2 with hnone | hhalted
  · rw [hclient] at hnone
    cases hnone
  · rw [hs.halted] at hhalted
    cases hhalted

/-- A message `hi` of `a` for `b` is not confirmed. -/
theorem not_confirmed :
    ¬∀ (P : Pair) (slack : Slack) (s : Chats),
      Reachable (Chats.Initial P) (Chats.Step P slack) s → Confirmed P s := by
  intro hall
  have hslack : ∀ blk : Block, (fun _ => 8 : Slack) blk ≠ 0 := fun _ => Nat.succ_ne_zero 7
  have hmsg : '\r' ∉ ['h', 'i'] ∧ '\x00' ∉ ['h', 'i'] := by decide
  obtain ⟨s, hreach, hquiet, hreq⟩ := (Chats.initial_initial twoUsers).exists_requested hslack hmsg
    (by decide) (by decide)
  exact ((Sound.of_reachable hreach).countP_eq_iff .a).mp ((hall twoUsers _ s hreach).2 hquiet .a)
    hreq

end ME2U.System
