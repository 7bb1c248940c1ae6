import Mathlib.Data.List.TakeWhile
import ME2U.Server.Handler

/-!
# What each request does

`dispatch` compares prefixes of a request string. On the requests of the protocol it takes the
branch of the verb (`dispatch_iam`, `dispatch_toUser`, …), and whether the handler is back in its
loop afterwards depends on the registry and on which connections are open.

* `ending_remove_add_iff`: what is left of a string with the terminating sequence added.
* `findUserToSendMsgTo_eq`, `run_sendOtToUsr_ok_iff`, `run_broadcastUoff_ok_iff`: the loops over
  the registry.
* `run_dispatch_again_iff`: on an open connection the handler goes on after a request exactly when
  the request is `Serviceable`.
-/

namespace ME2U.Server

variable (conn : Conn) (addr : Addr)

/-! ## The branch taken -/

/-- The first two characters of a string with a longer beginning. -/
theorem take_two_of_take {newStr verb : Str} {n : ℕ} (hn : 2 ≤ n) (h : newStr.take n = verb) :
    newStr.take 2 = verb.take 2 := by
  rw [← h, List.take_take, Nat.min_eq_left hn]

/-- The seven branches of the dispatch, each with the conditions that select it. -/
theorem branch_cases (newStr : Str) :
    newStr = Verb.me2u ∨ newStr.take 3 = Verb.iam ∨ newStr = Verb.listu ∨
      newStr.take 2 = Verb.toUser ∨ newStr.take 4 = Verb.morf ∨ newStr = Verb.bye ∨
      (newStr ≠ Verb.me2u ∧ newStr.take 3 ≠ Verb.iam ∧ newStr ≠ Verb.listu ∧
        newStr.take 2 ≠ Verb.toUser ∧ newStr.take 4 ≠ Verb.morf ∧ newStr ≠ Verb.bye) := by
  tauto

/-- A string that begins like a `TO` takes no earlier branch. -/
theorem ne_of_take_toUser {newStr : Str} (h : newStr.take 2 = Verb.toUser) :
    newStr ≠ Verb.me2u ∧ newStr.take 3 ≠ Verb.iam ∧ newStr ≠ Verb.listu := by
  refine ⟨?_, fun hiam => ?_, ?_⟩
  · rintro rfl
    exact absurd h (by decide)
  · rw [take_two_of_take (by decide) hiam] at h
    exact absurd h (by decide)
  · rintro rfl
    exact absurd h (by decide)

/-- A string that begins like a `MORF` takes no earlier branch. -/
theorem ne_of_take_morf {newStr : Str} (h : newStr.take 4 = Verb.morf) :
    newStr ≠ Verb.me2u ∧ newStr.take 3 ≠ Verb.iam ∧ newStr ≠ Verb.listu ∧
      newStr.take 2 ≠ Verb.toUser := by
  have htwo := take_two_of_take (by decide) h
  refine ⟨?_, fun hiam => ?_, ?_, ?_⟩
  · rintro rfl
    exact absurd h (by decide)
  · rw [take_two_of_take (by decide) hiam] at htwo
    exact absurd htwo (by decide)
  · rintro rfl
    exact absurd h (by decide)
  · rw [htwo]
    decide

/-- **Adding and removing the terminating sequence** gives a string back iff the sequence does not
occur in it, whatever part of the sequence it ends in. -/
theorem ending_remove_add_iff (s : Str) :
    ending (ending s .add) .remove = s ↔ ¬terminatingSequence <:+: s :=
  deleteAll_append_self_iff terminatingSequence_ne_nil border_terminatingSequence s

/-- It ends in three quarters of the sequence. -/
example : ending (ending ['a', '\r', '\n', '\r'] .add) .remove = ['a', '\r', '\n', '\r'] := by
  decide

/-- A body without a carriage return is found in its bytes as they were sent. -/
theorem requestString_wire_of_notMem {body : Str} (h : '\r' ∉ body) :
    requestString (wire body) = some body := by
  have hno : ¬terminatingSequence <:+: body := fun hin => h (hin.subset (by decide))
  have hback : deleteAll terminatingSequence (body ++ terminatingSequence) = body :=
    (deleteAll_append_self_iff terminatingSequence_ne_nil border_terminatingSequence body).mpr hno
  rw [wire, requestString_encode, ending, hback]

/-- The server reads back the text of a request, -/
theorem requestString_wire {q : Request} (hq : q.CRFree) :
    requestString (wire q.render) = some q.render :=
  requestString_wire_of_notMem hq.notMem_render

/-- and handles it. -/
theorem handleData_wire {q : Request} (hq : q.CRFree) :
    handleData conn addr (wire q.render) = dispatch conn addr q.render := by
  unfold handleData
  rw [requestString_wire hq]

theorem dispatch_me2u : dispatch conn addr Request.me2u.render = (do
    send conn (encode (ending Verb.u2em))
    pure .again) := by
  have h₁ : Request.me2u.render = Verb.me2u := rfl
  unfold dispatch
  rw [if_pos h₁]

/-- The reply to a greeting. -/
theorem run_handleData_me2u {w : World} (hopen : w.isOpen conn = true) :
    (handleData conn addr (wire Request.me2u.render)).run w =
      (.ok .again, w.logged conn (encode (ending Verb.u2em))) := by
  have hreq : Request.me2u.CRFree := trivial
  rw [handleData_wire conn addr hreq, dispatch_me2u, run_send_bind_of_isOpen hopen, Eff.run_pure]

/-- Every string that begins with the verb takes the branch of `IAM`. -/
theorem dispatch_of_take_iam {newStr : Str} (h : newStr.take 3 = Verb.iam) :
    dispatch conn addr newStr = (do
      let w ← Eff.get
      if checkUserExists w.users (newStr.drop 4) then pure .leave
      else do
        send conn (encode (ending Verb.mai))
        send conn (encode (ending (Verb.motd ++ ' ' :: motd)))
        Eff.modify fun w => { w with users := w.users ++ [⟨newStr.drop 4, conn, addr⟩] }
        pure .again) := by
  have h₁ : newStr ≠ Verb.me2u := by
    rintro rfl
    exact absurd h (by decide)
  unfold dispatch
  rw [if_neg h₁, if_pos h]

theorem dispatch_iam (name : Str) : dispatch conn addr (Request.iam name).render = (do
    let w ← Eff.get
    if checkUserExists w.users name then pure .leave
    else do
      send conn (encode (ending Verb.mai))
      send conn (encode (ending (Verb.motd ++ ' ' :: motd)))
      Eff.modify fun w => { w with users := w.users ++ [⟨name, conn, addr⟩] }
      pure .again) :=
  dispatch_of_take_iam conn addr (show (Request.iam name).render.take 3 = Verb.iam from rfl)

/-- The world after a login: two replies, and a new entry. -/
def World.loggedIn (w : World) (conn : Conn) (addr : Addr) (name : Str) : World :=
  { (w.logged conn (encode (ending Verb.mai))).logged conn
      (encode (ending (Verb.motd ++ ' ' :: motd))) with
    users := w.users ++ [⟨name, conn, addr⟩] }

/-- What an `IAM` does: it ends the loop where the name is taken, raises where the connection cannot
be sent to, and otherwise logs in. -/
theorem run_dispatch_iam {newStr : Str} (h : newStr.take 3 = Verb.iam) (w : World) :
    (dispatch conn addr newStr).run w =
      if checkUserExists w.users (newStr.drop 4) then (.ok .leave, w)
      else if w.isOpen conn then (.ok .again, w.loggedIn conn addr (newStr.drop 4))
      else (.error .osError, w.logged conn (encode (ending Verb.mai))) := by
  rw [dispatch_of_take_iam conn addr h, Eff.run_get_bind]
  by_cases hname : checkUserExists w.users (newStr.drop 4) = true
  · rw [if_pos hname, if_pos hname, Eff.run_pure]
  rw [if_neg hname, if_neg hname]
  by_cases hopen : w.isOpen conn = true
  · rw [if_pos hopen, run_send_bind_of_isOpen hopen, run_send_bind_of_isOpen (by simpa using hopen),
      Eff.run_modify_bind, Eff.run_pure]
    rfl
  · rw [if_neg hopen, Eff.run_bind_error (by rw [run_send, if_neg hopen])]

/-- A login with a free name on an open connection. -/
theorem run_dispatch_iam_of_free {name : Str} {w : World} (hopen : w.isOpen conn = true)
    (hfree : checkUserExists w.users name = false) :
    (dispatch conn addr (Request.iam name).render).run w =
      (.ok .again, w.loggedIn conn addr name) := by
  have h : (Request.iam name).render.take 3 = Verb.iam := rfl
  have hname : (Request.iam name).render.drop 4 = name := rfl
  rw [run_dispatch_iam conn addr h, hname, hfree, if_neg (by decide), if_pos hopen]

theorem dispatch_listu : dispatch conn addr Request.listu.render = (do
    let w ← Eff.get
    send conn (encode (ending (Verb.utsil ++ ' ' :: getUsers w.users)))
    pure .again) := by
  have h₁ : Request.listu.render ≠ Verb.me2u := by decide
  have h₂ : Request.listu.render.take 3 ≠ Verb.iam := by decide
  have h₃ : Request.listu.render = Verb.listu := rfl
  unfold dispatch
  rw [if_neg h₁, if_neg h₂, if_pos h₃]

/-- Every string that begins with the verb takes the branch of `TO`. -/
theorem dispatch_of_take_toUser {newStr : Str} (h : newStr.take 2 = Verb.toUser) :
    dispatch conn addr newStr = (do
      let (name, msg) ← splitOnce (newStr.drop 3)
      let w ← Eff.get
      let found ← findUserToSendMsgTo w.users name msg (getNameFromAddr w.users addr)
      if found then pure .again
      else do
        send conn (encode (ending (Verb.edne ++ ' ' :: name)))
        pure .again) := by
  obtain ⟨h₁, h₂, h₃⟩ := ne_of_take_toUser h
  unfold dispatch
  rw [if_neg h₁, if_neg h₂, if_neg h₃, if_pos h]

theorem dispatch_toUser (name msg : Str) : dispatch conn addr (Request.toUser name msg).render = (do
    let (name, msg) ← splitOnce (name ++ ' ' :: msg)
    let w ← Eff.get
    let found ← findUserToSendMsgTo w.users name msg (getNameFromAddr w.users addr)
    if found then pure .again
    else do
      send conn (encode (ending (Verb.edne ++ ' ' :: name)))
      pure .again) :=
  dispatch_of_take_toUser conn addr (show (Request.toUser name msg).render.take 2 =
    Verb.toUser from rfl)

/-- Every string that begins with the verb takes the branch of `MORF`. -/
theorem dispatch_of_take_morf {newStr : Str} (h : newStr.take 4 = Verb.morf) :
    dispatch conn addr newStr = (do
      let w ← Eff.get
      sendOtToUsr w.users (newStr.drop 5) (getNameFromAddr w.users addr)
      pure .again) := by
  obtain ⟨h₁, h₂, h₃, h₄⟩ := ne_of_take_morf h
  unfold dispatch
  rw [if_neg h₁, if_neg h₂, if_neg h₃, if_neg h₄, if_pos h]

theorem dispatch_morf (name : Str) : dispatch conn addr (Request.morf name).render = (do
    let w ← Eff.get
    sendOtToUsr w.users name (getNameFromAddr w.users addr)
    pure .again) :=
  dispatch_of_take_morf conn addr (show (Request.morf name).render.take 4 = Verb.morf from rfl)

theorem dispatch_bye : dispatch conn addr Request.bye.render = (do
    removeUsrByAddr addr
    pure .again) := by
  have h₁ : Request.bye.render ≠ Verb.me2u := by decide
  have h₂ : Request.bye.render.take 3 ≠ Verb.iam := by decide
  have h₃ : Request.bye.render ≠ Verb.listu := by decide
  have h₄ : Request.bye.render.take 2 ≠ Verb.toUser := by decide
  have h₅ : Request.bye.render.take 4 ≠ Verb.morf := by decide
  have h₆ : Request.bye.render = Verb.bye := rfl
  unfold dispatch
  rw [if_neg h₁, if_neg h₂, if_neg h₃, if_neg h₄, if_neg h₅, if_pos h₆]

/-- A string of another kind closes the connection. -/
theorem dispatch_of_other {newStr : Str} (h : newStr ≠ Verb.me2u ∧ newStr.take 3 ≠ Verb.iam ∧
    newStr ≠ Verb.listu ∧ newStr.take 2 ≠ Verb.toUser ∧ newStr.take 4 ≠ Verb.morf ∧
    newStr ≠ Verb.bye) :
    dispatch conn addr newStr = (do
      close conn
      pure .again) := by
  obtain ⟨h₁, h₂, h₃, h₄, h₅, h₆⟩ := h
  unfold dispatch
  rw [if_neg h₁, if_neg h₂, if_neg h₃, if_neg h₄, if_neg h₅, if_neg h₆]

/-! ## The loops over the registry -/

/-- The word that a `TO` request names as the receiver: the text before the first space. -/
def receiver (name : Str) : Str := name.takeWhile (· ≠ ' ')

/-- A text without spaces is free of them character by character. -/
theorem forall_ne_space {s : Str} (h : ' ' ∉ s) : ∀ c ∈ s, decide (c ≠ ' ') = true := by
  intro c hc
  simp only [decide_eq_true_eq]
  rintro rfl
  exact h hc

/-- The receiver is the word in front of the blank. -/
theorem receiver_append {name : Str} (h : ' ' ∉ name) (msg : Str) :
    receiver (name ++ ' ' :: msg) = name := by
  unfold receiver
  rw [List.takeWhile_append_of_pos (forall_ne_space h)]
  simp

/-- Behind the text before the first space. -/
theorem dropWhile_append_space {name : Str} (h : ' ' ∉ name) (msg : Str) :
    (name ++ ' ' :: msg).dropWhile (· ≠ ' ') = ' ' :: msg := by
  rw [List.dropWhile_append_of_pos (forall_ne_space h)]
  simp

/-- Only the text before the first space counts. -/
theorem receiver_append_cons (name msg : Str) : receiver (name ++ ' ' :: msg) = receiver name := by
  unfold receiver
  induction name with
  | nil => simp
  | cons c name ih =>
      by_cases hc : c = ' '
      · simp [hc]
      · rw [List.cons_append, List.takeWhile_cons_of_pos (by simpa using hc), ih,
          List.takeWhile_cons_of_pos (by simpa using hc)]

/-- A name without a space is split off whole. -/
theorem splitOnce_of_notMem {name : Str} (h : ' ' ∉ name) (msg : Str) :
    splitOnce (name ++ ' ' :: msg) = pure (name, msg) := by
  have htake : (name ++ ' ' :: msg).takeWhile (· ≠ ' ') = name := receiver_append h msg
  unfold splitOnce
  rw [dropWhile_append_space h, htake]

/-- A string is split at its first space, or it has none and the split raises. -/
theorem splitOnce_cases (s : Str) :
    (splitOnce s = Eff.stop .valueError ∧ ' ' ∉ s) ∨
      ∃ name msg, s = name ++ ' ' :: msg ∧ ' ' ∉ name ∧ splitOnce s = pure (name, msg) := by
  by_cases h : ' ' ∈ s
  · obtain ⟨name, msg, rfl, hname⟩ := List.eq_append_cons_of_mem h
    exact .inr ⟨name, msg, rfl, hname, splitOnce_of_notMem hname msg⟩
  · exact .inl ⟨by rw [splitOnce, List.dropWhile_eq_nil_iff.mpr (forall_ne_space h)], h⟩

/-- Every name stands behind a blank. -/
theorem getUsers_eq_flatMap (users : List User) :
    getUsers users = users.flatMap fun u => ' ' :: u.name := by
  suffices h : ∀ acc, users.foldl (fun toRet usr => toRet ++ ' ' :: usr.name) acc =
      acc ++ users.flatMap fun u => ' ' :: u.name by
    simpa [getUsers] using h []
  induction users with
  | nil => simp
  | cons u users ih => intro acc; simp [ih]

/-- The message goes to the first entry of that name. -/
theorem findUserToSendMsgTo_eq (users : List User) (name msg : Str) (fromName : Option Str) :
    findUserToSendMsgTo users name msg fromName =
      match users.find? (·.name == name) with
      | none => pure false
      | some i => (do
          let s ← nameText fromName
          send i.conn (encode (ending (Verb.fromUser ++ ' ' :: (s ++ ' ' :: msg))))
          pure true) := by
  induction users with
  | nil => rfl
  | cons i users ih =>
      by_cases hi : i.name = name
      · unfold findUserToSendMsgTo
        rw [if_pos hi, List.find?_cons_of_pos (by simpa using hi)]
      · unfold findUserToSendMsgTo
        rw [if_neg hi, List.find?_cons_of_neg (by simpa using hi), ih]

/-- What a `TO` to a registered name does: it raises for an unregistered sender, and otherwise sends
one frame to the first entry of that name. -/
theorem run_findUserToSendMsgTo_of_find {users : List User} {name : Str} {i : User}
    (hfind : users.find? (·.name == name) = some i) (msg : Str)
    (fromName : Option Str) (w : World) :
    (findUserToSendMsgTo users name msg fromName).run w =
      match fromName with
      | none => (.error .typeError, w)
      | some s =>
          (if w.isOpen i.conn then .ok true else .error .osError,
            w.logged i.conn (encode (ending (Verb.fromUser ++ ' ' :: (s ++ ' ' :: msg))))) := by
  rw [findUserToSendMsgTo_eq, hfind]
  cases fromName with
  | none => rfl
  | some s =>
      simp only [nameText, Eff.run_pure_bind]
      rw [Eff.run_bind, run_send]
      by_cases hopen : w.isOpen i.conn = true
      · simp [hopen]
      · simp [hopen]

/-- A message to a name that nobody has is answered so. -/
theorem run_dispatch_toUser_of_none {w : World} {name : Str} (hname : ' ' ∉ name)
    (hnone : w.users.find? (·.name == name) = none) {conn : Conn} (hopen : w.isOpen conn = true)
    (addr : Addr) (msg : Str) :
    (dispatch conn addr (Request.toUser name msg).render).run w =
      (.ok .again, w.logged conn (encode (ending (Verb.edne ++ ' ' :: name)))) := by
  rw [dispatch_toUser, splitOnce_of_notMem hname, Eff.run_pure_bind, Eff.run_get_bind,
    findUserToSendMsgTo_eq, hnone, Eff.run_pure_bind, if_neg (by decide),
    run_send_bind_of_isOpen hopen, Eff.run_pure]

/-- A name is taken where the search for it finds an entry. -/
theorem checkUserExists_eq (users : List User) (name : Str) :
    checkUserExists users name = (users.find? (·.name == name)).isSome := by
  unfold checkUserExists
  rw [List.isSome_find?]

/-- The search for a free name finds nothing. -/
theorem find?_eq_none_of_free {users : List User} {name : Str}
    (h : checkUserExists users name = false) :
    users.find? (·.name == name) = none := by
  rw [checkUserExists_eq] at h
  simpa using h

/-- Where addresses are unique, the name found is that of the entry. -/
theorem getNameFromAddr_of_mem {users : List User} (h : (users.map User.addr).Nodup) {u : User}
    (hu : u ∈ users) : getNameFromAddr users u.addr = some u.name := by
  induction users with
  | nil => cases hu
  | cons i users ih =>
      rw [List.map_cons, List.nodup_cons] at h
      rw [getNameFromAddr]
      rcases List.mem_cons.mp hu with rfl | hu
      · rw [if_pos rfl]
      · have hne : i.addr ≠ u.addr := fun heq => h.1 (heq ▸ List.mem_map_of_mem hu)
        rw [if_neg hne, ih h.2 hu]

theorem run_nameText_eq_ok_iff {name : Option Str} {s : Str} {w w' : World} :
    (nameText name).run w = (.ok s, w') ↔ name = some s ∧ w' = w := by
  cases name <;> simp [nameText, eq_comm]

/-- Sending to everybody of a name returns where each of them can be sent to. -/
theorem run_sendOtToUsr_ok_iff {users : List User} {name : Str}
    {fromName : Option Str} {w : World} :
    (∃ w', (sendOtToUsr users name fromName).run w = (.ok (), w')) ↔
      ∀ i ∈ users, i.name = name → fromName.isSome ∧ w.isOpen i.conn = true := by
  induction users generalizing w with
  | nil => simp [sendOtToUsr]
  | cons i users ih =>
      rw [List.forall_mem_cons, sendOtToUsr]
      by_cases hi : i.name = name
      · rw [if_pos hi]
        simp only [Eff.run_bind_eq_ok_iff, run_nameText_eq_ok_iff, run_send_eq_ok_iff, hi,
          forall_const]
        constructor
        · rintro ⟨w', s, _, ⟨rfl, rfl⟩, -, _, ⟨hopen, rfl⟩, hrest⟩
          exact ⟨⟨rfl, hopen⟩, (ih (w := World.logged _ i.conn _)).mp ⟨w', hrest⟩⟩
        · rintro ⟨⟨hsome, hopen⟩, hrest⟩
          obtain ⟨s, rfl⟩ := Option.isSome_iff_exists.mp hsome
          obtain ⟨w', hw'⟩ := (ih (w := w.logged i.conn _)).mpr hrest
          exact ⟨w', s, w, ⟨rfl, rfl⟩, (), _, ⟨hopen, rfl⟩, hw'⟩
      · rw [if_neg hi, ih]
        simp [hi]

/-- Telling everybody returns where everybody can be sent to. -/
theorem run_broadcastUoff_ok_iff {users : List User} {name : Str} {w : World} :
    (∃ w', (broadcastUoff users name).run w = (.ok (), w')) ↔
      ∀ i ∈ users, w.isOpen i.conn = true := by
  induction users generalizing w with
  | nil => simp [broadcastUoff]
  | cons i users ih =>
      rw [List.forall_mem_cons, broadcastUoff]
      simp only [Eff.run_bind_eq_ok_iff, run_send_eq_ok_iff]
      constructor
      · rintro ⟨w', -, _, ⟨hopen, rfl⟩, hrest⟩
        exact ⟨hopen, (ih (w := w.logged i.conn _)).mp ⟨w', hrest⟩⟩
      · rintro ⟨hopen, hrest⟩
        obtain ⟨w', hw'⟩ := (ih (w := w.logged i.conn _)).mpr hrest
        exact ⟨w', (), _, ⟨hopen, rfl⟩, hw'⟩

/-- What telling the users of a name sends: to connections of users of that name. -/
theorem run_sendOtToUsr_snd (users : List User) (name : Str) (fromName : Option Str) (w : World) :
    ∃ new, ((sendOtToUsr users name fromName).run w).2 = { w with sent := w.sent ++ new } ∧
      ∀ s ∈ new, ∃ i ∈ users, i.name = name ∧ s.conn = i.conn := by
  induction users generalizing w with
  | nil => exact ⟨[], by simp [sendOtToUsr], by simp⟩
  | cons i users ih =>
      rw [sendOtToUsr]
      by_cases hi : i.name = name
      · rw [if_pos hi]
        cases fromName with
        | none => exact ⟨[], by simp [nameText], by simp⟩
        | some s =>
            simp only [nameText, Eff.run_pure_bind]
            by_cases hopen : w.isOpen i.conn = true
            · obtain ⟨new, hrun, hnew⟩ :=
                ih (w.logged i.conn (encode (ending (Verb.ot ++ ' ' :: s))))
              rw [run_send_bind_of_isOpen hopen, hrun]
              refine ⟨_ :: new, by rw [World.logged_sent, List.append_assoc]; rfl, ?_⟩
              rw [List.forall_mem_cons]
              refine ⟨⟨i, by simp, hi, rfl⟩, fun s hs => ?_⟩
              obtain ⟨j, hj, hname, hconn⟩ := hnew s hs
              exact ⟨j, by simp [hj], hname, hconn⟩
            · rw [Eff.run_bind_error (by rw [run_send, if_neg hopen])]
              exact ⟨[⟨i.conn, _, _⟩], rfl, by simp [hi]⟩
      · rw [if_neg hi]
        obtain ⟨new, hrun, hnew⟩ := ih w
        refine ⟨new, hrun, fun s hs => ?_⟩
        obtain ⟨j, hj, hname, hconn⟩ := hnew s hs
        exact ⟨j, by simp [hj], hname, hconn⟩

/-- **What a `TO` does**: nothing without a space or from nobody, and otherwise it sends one frame,
the message to the first entry of that name, or an `EDNE` back. -/
theorem run_dispatch_to_snd {newStr : Str} (w : World) (h : newStr.take 2 = Verb.toUser) :
    ((dispatch conn addr newStr).run w).2 = w ∧
        (' ' ∉ newStr.drop 3 ∨ getNameFromAddr w.users addr = none) ∨
      ∃ name msg, newStr.drop 3 = name ++ ' ' :: msg ∧ ' ' ∉ name ∧
        ((∃ i s, w.users.find? (·.name == name) = some i ∧ getNameFromAddr w.users addr = some s ∧
            ((dispatch conn addr newStr).run w).2 =
              w.logged i.conn (encode (ending (Verb.fromUser ++ ' ' :: (s ++ ' ' :: msg))))) ∨
          w.users.find? (·.name == name) = none ∧ ((dispatch conn addr newStr).run w).2 =
            w.logged conn (encode (ending (Verb.edne ++ ' ' :: name)))) := by
  rw [dispatch_of_take_toUser conn addr h]
  rcases splitOnce_cases (newStr.drop 3) with ⟨hsplit, hfree⟩ | ⟨name, msg, hdrop, hname, hsplit⟩
  · rw [hsplit]
    exact .inl ⟨rfl, .inl hfree⟩
  · rw [hsplit]
    simp only [Eff.run_pure_bind, Eff.run_get_bind]
    cases hfind : w.users.find? (·.name == name) with
    | none =>
        refine .inr ⟨name, msg, hdrop, hname, .inr ⟨hfind, ?_⟩⟩
        rw [findUserToSendMsgTo_eq, hfind, Eff.run_pure_bind, if_neg (by decide),
          Eff.run_bind, run_send]
        by_cases hopen : w.isOpen conn = true <;> simp [hopen]
    | some i =>
        have hrun := run_findUserToSendMsgTo_of_find hfind msg (getNameFromAddr w.users addr) w
        cases hreg : getNameFromAddr w.users addr with
        | none =>
            rw [hreg] at hrun
            rw [Eff.run_bind_error hrun]
            exact .inl ⟨rfl, .inr rfl⟩
        | some s =>
            rw [hreg] at hrun
            refine .inr ⟨name, msg, hdrop, hname, .inl ⟨i, s, hfind, rfl, ?_⟩⟩
            rw [Eff.run_bind, hrun]
            by_cases hopen : w.isOpen i.conn = true <;> simp [hopen]

/-! ## Requests the handler goes on after -/

/-- What a request needs so that the handler is in its loop again afterwards: an `IAM` a free name,
and the others a registry in which everybody to be told something can be told it. -/
def Serviceable (addr : Addr) (w : World) : Request → Prop
  | .me2u | .listu => True
  | .iam name => checkUserExists w.users name = false
  | .toUser name _ => ∀ i, w.users.find? (·.name == receiver name) = some i →
      (getNameFromAddr w.users addr).isSome ∧ w.isOpen i.conn = true
  | .morf name => ∀ i ∈ w.users, i.name = name →
      (getNameFromAddr w.users addr).isSome ∧ w.isOpen i.conn = true
  | .bye => ∃ i, w.users.find? (·.addr == addr) = some i ∧ w.isOpen i.conn = true ∧
      ∀ j ∈ w.users.erase i, j.conn ≠ i.conn ∧ w.isOpen j.conn = true

/-- A `BYE` does not raise if it can be served. -/
theorem run_removeUsrByAddr_ok_iff {addr : Addr} {w : World} :
    (∃ w', (removeUsrByAddr addr).run w = (.ok (), w')) ↔ Serviceable addr w .bye := by
  unfold removeUsrByAddr
  rw [Serviceable, Eff.run_get_bind]
  cases hfind : w.users.find? fun i => i.addr == addr with
  | none => simp
  | some i =>
      simp only [Option.some.injEq, exists_eq_left']
      by_cases hopen : w.isOpen i.conn = true
      · rw [run_send_bind_of_isOpen hopen]
        simp only [close, Eff.run_modify_bind, Eff.run_get_bind, run_broadcastUoff_ok_iff, hopen,
          true_and, World.logged_users, World.logged_isOpen]
        apply forall₂_congr
        intro j _
        by_cases hj : j.conn = i.conn <;> simp [hj]
      · rw [Eff.run_bind_error (by rw [run_send, if_neg hopen])]
        simp [hopen]

/-- The text before the first space is the receiver. -/
theorem receiver_of_splitOnce {s name msg : Str} (h : s = name ++ ' ' :: msg) (hname : ' ' ∉ name) :
    receiver s = name := by
  rw [h, receiver_append hname]

/-- Handing on a message, or answering that there is nobody of that name, returns where the first
user of that name can be sent a message from somebody. -/
theorem run_handOn_again_iff {w : World} (hopen : w.isOpen conn = true) (name msg : Str) :
    (∃ w', (do
        let found ← findUserToSendMsgTo w.users name msg (getNameFromAddr w.users addr)
        if found then pure .again
        else do
          send conn (encode (ending (Verb.edne ++ ' ' :: name)))
          pure .again : Py LoopCtl).run w = (.ok .again, w')) ↔
      ∀ i, w.users.find? (·.name == name) = some i →
        (getNameFromAddr w.users addr).isSome ∧ w.isOpen i.conn = true := by
  rw [findUserToSendMsgTo_eq]
  cases hfind : w.users.find? (·.name == name) with
  | none =>
      simp only [Eff.run_pure_bind, Bool.false_eq_true, if_false]
      rw [run_send_bind_of_isOpen hopen]
      simp
  | some i =>
      simp only [Option.some.injEq, forall_eq', Eff.run_bind_eq_ok_iff, run_nameText_eq_ok_iff,
        run_send_eq_ok_iff]
      constructor
      · rintro ⟨_, _, _, ⟨s, _, ⟨hs, rfl⟩, -, _, ⟨hsend, rfl⟩, -⟩, -⟩
        exact ⟨Option.isSome_iff_exists.mpr ⟨s, hs⟩, hsend⟩
      · rintro ⟨hsome, hsend⟩
        obtain ⟨s, hs⟩ := Option.isSome_iff_exists.mp hsome
        exact ⟨_, true, _, ⟨s, w, ⟨hs, rfl⟩, (), _, ⟨hsend, rfl⟩, rfl⟩, rfl⟩

/-- What a request string needs so that the handler is in its loop again afterwards. -/
def Answerable (addr : Addr) (w : World) (newStr : Str) : Prop :=
  if newStr.take 3 = Verb.iam then Serviceable addr w (.iam (newStr.drop 4))
  else if newStr.take 2 = Verb.toUser then
    ' ' ∈ newStr.drop 3 ∧ Serviceable addr w (.toUser (newStr.drop 3) [])
  else if newStr.take 4 = Verb.morf then Serviceable addr w (.morf (newStr.drop 5))
  else if newStr = Verb.bye then Serviceable addr w .bye
  else True

/-- **When the handler goes on**: on an open connection it is back in its loop after a request
string exactly when that is answerable. -/
theorem run_dispatch_again_iff_answerable {w : World}
    (hopen : w.isOpen conn = true) (newStr : Str) :
    (∃ w', (dispatch conn addr newStr).run w = (.ok .again, w')) ↔ Answerable addr w newStr := by
  have hsent : ∀ body, ∃ w', (send conn (encode (ending body)) >>= fun _ =>
      (pure .again : Py LoopCtl)).run w = (.ok .again, w') := fun body =>
    ⟨_, run_send_bind_of_isOpen hopen _ _⟩
  unfold Answerable
  rcases branch_cases newStr with rfl | hiam | rfl | hto | hmorf | rfl | hother
  · have hme2u : dispatch conn addr Verb.me2u = _ := dispatch_me2u conn addr
    rw [hme2u]
    exact iff_of_true (hsent _) trivial
  · rw [if_pos hiam, run_dispatch_iam conn addr hiam, Serviceable]
    cases checkUserExists w.users (newStr.drop 4) <;> simp [hopen]
  · have hlistu : dispatch conn addr Verb.listu = _ := dispatch_listu conn addr
    rw [hlistu, Eff.run_get_bind]
    exact iff_of_true (hsent _) trivial
  · obtain ⟨-, hiam, -⟩ := ne_of_take_toUser hto
    rw [if_neg hiam, if_pos hto, dispatch_of_take_toUser conn addr hto]
    rcases splitOnce_cases (newStr.drop 3) with ⟨hsplit, hfree⟩ | ⟨name, msg, hdrop, hname, hsplit⟩
    · rw [hsplit]
      simp [hfree]
    · have hmem : ' ' ∈ newStr.drop 3 := by rw [hdrop]; simp
      rw [hsplit, Eff.run_pure_bind, Eff.run_get_bind, Serviceable,
        receiver_of_splitOnce hdrop hname]
      exact (run_handOn_again_iff conn addr hopen name msg).trans (and_iff_right hmem).symm
  · obtain ⟨-, hiam, -, hto⟩ := ne_of_take_morf hmorf
    rw [if_neg hiam, if_neg hto, if_pos hmorf, dispatch_of_take_morf conn addr hmorf,
      Eff.run_get_bind, Serviceable, ← run_sendOtToUsr_ok_iff]
    simp only [Eff.run_bind_eq_ok_iff, Eff.run_pure, Prod.mk.injEq, true_and]
    exact ⟨fun ⟨_, _, w', h, _⟩ => ⟨w', h⟩, fun ⟨w', h⟩ => ⟨w', (), w', h, rfl⟩⟩
  · have hbye : dispatch conn addr Verb.bye = _ := dispatch_bye conn addr
    rw [hbye, if_neg (by decide), if_neg (by decide), if_neg (by decide), if_pos rfl,
      ← run_removeUsrByAddr_ok_iff]
    simp only [Eff.run_bind_eq_ok_iff, Eff.run_pure, Prod.mk.injEq, true_and]
    exact ⟨fun ⟨_, _, w', h, _⟩ => ⟨w', h⟩, fun ⟨w', h⟩ => ⟨w', (), w', h, rfl⟩⟩
  · rw [dispatch_of_other conn addr hother, if_neg hother.2.1, if_neg hother.2.2.2.1,
      if_neg hother.2.2.2.2.1, if_neg hother.2.2.2.2.2]
    exact iff_of_true ⟨_, rfl⟩ trivial

/-- The requests of the protocol are answerable where they are serviceable. -/
theorem answerable_render_iff (w : World) (q : Request) :
    Answerable addr w q.render ↔ Serviceable addr w q := by
  cases q with
  | toUser name msg =>
      have hdrop : (Request.toUser name msg).render.drop 3 = name ++ ' ' :: msg := rfl
      have hmem : ' ' ∈ name ++ ' ' :: msg := by simp
      have h₁ : (Request.toUser name msg).render.take 3 ≠ Verb.iam := by
        simp [Request.render, Verb.toUser, Verb.iam]
      have h₂ : (Request.toUser name msg).render.take 2 = Verb.toUser := rfl
      unfold Answerable
      rw [if_neg h₁, if_pos h₂, hdrop, Serviceable, Serviceable, receiver_append_cons]
      exact and_iff_right hmem
  | morf name =>
      have h₁ : (Request.morf name).render.take 3 ≠ Verb.iam := by
        simp [Request.render, Verb.morf, Verb.iam]
      have h₂ : (Request.morf name).render.take 2 ≠ Verb.toUser := by
        simp [Request.render, Verb.morf, Verb.toUser]
      have h₃ : (Request.morf name).render.take 4 = Verb.morf := rfl
      unfold Answerable
      rw [if_neg h₁, if_neg h₂, if_pos h₃]
      rfl
  | iam name => exact Iff.of_eq (if_pos rfl)
  | me2u | listu | bye => exact Iff.rfl

/-- **When the handler goes on** after a request of the protocol: exactly when that is
serviceable. -/
theorem run_dispatch_again_iff {w : World} (hopen : w.isOpen conn = true) (q : Request) :
    (∃ w', (dispatch conn addr q.render).run w = (.ok .again, w')) ↔ Serviceable addr w q :=
  (run_dispatch_again_iff_answerable conn addr hopen q.render).trans
    (answerable_render_iff addr w q)

end ME2U.Server
