import Mathlib.Data.List.Nodup
import ME2U.Server.Injection

/-!
# What one request can do

A request changes the registry in two ways, an `IAM` by a new entry and a `BYE` by the removal of
one, and it sends frames of a few kinds.

* `users_run_dispatch`: the registry after a request.
* `sent_run_dispatch`: what a request sends is among what it may send (`Sends`).
* `keeps_dispatch_of`: what frames, closed connections and changes of the registry keep, requests
  keep.
* `routing_agrees`: names stay distinct, so that the search that stops at the first match and the
  one that visits all of them send to the same connection.
-/

namespace ME2U.Server

/-! ## The removal of a user -/

/-- The world after a user has been told good-bye: `EYB`, the connection closed, the entry gone. -/
def World.withdrawn (w : World) (toRem : User) : World :=
  { w.logged toRem.conn (encode (ending Verb.eyb)) with
    isOpen := Function.update w.isOpen toRem.conn false
    users := w.users.erase toRem }

/-- What a `BYE` does: it raises for an unregistered address and for a connection that cannot be
sent to, and otherwise the user is removed and the others are told. -/
theorem run_removeUsrByAddr (addr : Addr) (w : World) :
    (removeUsrByAddr addr).run w =
      match w.users.find? fun i => i.addr == addr with
      | none => (.error .attributeError, w)
      | some toRem =>
          if w.isOpen toRem.conn then
            (broadcastUoff (w.users.erase toRem) toRem.name).run (w.withdrawn toRem)
          else (.error .osError, w.logged toRem.conn (encode (ending Verb.eyb))) := by
  unfold removeUsrByAddr
  rw [Eff.run_get_bind]
  cases w.users.find? fun i => i.addr == addr with
  | none => rfl
  | some toRem =>
      by_cases hopen : w.isOpen toRem.conn = true
      · simp only [if_pos hopen]
        rw [run_send_bind_of_isOpen hopen, close, Eff.run_modify_bind, Eff.run_modify_bind,
          Eff.run_get_bind]
        rfl
      · simp only [if_neg hopen]
        rw [Eff.run_bind_error (by rw [run_send, if_neg hopen])]

/-! ## The branches -/

section Branches

variable (conn : Conn) (addr : Addr)

/-- What a `BYE` does is what the removal does. -/
theorem run_dispatch_bye_snd (w : World) :
    ((dispatch conn addr Verb.bye).run w).2 = ((removeUsrByAddr addr).run w).2 := by
  have h : dispatch conn addr Verb.bye = (do
      removeUsrByAddr addr
      pure .again) := dispatch_bye conn addr
  rw [h, Eff.run_bind]
  rcases (removeUsrByAddr addr).run w with ⟨e | u, w'⟩ <;> rfl

/-- What a `MORF` does is what telling the users of that name does. -/
theorem run_dispatch_morf_snd {newStr : Str} (h : newStr.take 4 = Verb.morf) (w : World) :
    ((dispatch conn addr newStr).run w).2 =
      ((sendOtToUsr w.users (newStr.drop 5) (getNameFromAddr w.users addr)).run w).2 := by
  rw [dispatch_of_take_morf conn addr h, Eff.run_get_bind, Eff.run_bind]
  rcases (sendOtToUsr w.users (newStr.drop 5) (getNameFromAddr w.users addr)).run w with
    ⟨e | u, w'⟩ <;> rfl

/-- A request that is answered on the spot: the reply goes out, or sending it raises. -/
theorem run_send_again_snd (body : Str) (w : World) :
    ((send conn (encode (ending body)) >>= fun _ => (pure .again : Py LoopCtl)).run w).2 =
      w.logged conn (encode (ending body)) := by
  rw [Eff.run_bind, run_send]
  by_cases hopen : w.isOpen conn = true <;> simp [hopen]

end Branches

/-! ## The registry after a request -/

/-- The registry after a request: with a new entry after an `IAM` with a free name, and without the
entry of that address after a `BYE`. -/
def World.usersAfter (w : World) (conn : Conn) (addr : Addr) (newStr : Str) : List User :=
  if newStr.take 3 = Verb.iam then
    if checkUserExists w.users (newStr.drop 4) = false ∧ w.isOpen conn = true then
      w.users ++ [⟨newStr.drop 4, conn, addr⟩]
    else w.users
  else if newStr = Verb.bye then
    match w.users.find? fun i => i.addr == addr with
    | none => w.users
    | some toRem => if w.isOpen toRem.conn then w.users.erase toRem else w.users
  else w.users

section Users

variable (conn : Conn) (addr : Addr)

/-- A request whose first two characters are those of another verb leaves the registry alone. -/
theorem usersAfter_of_take_two {newStr verb : Str} (h : newStr.take 2 = verb)
    (hverb : verb ≠ Verb.iam.take 2 ∧ verb ≠ Verb.bye.take 2) (w : World) :
    w.usersAfter conn addr newStr = w.users := by
  have hiam : newStr.take 3 ≠ Verb.iam := fun hiam =>
    hverb.1 (h.symm.trans (take_two_of_take (by decide) hiam))
  have hbye : newStr ≠ Verb.bye := fun hbye => hverb.2 (by rw [← h, hbye])
  unfold World.usersAfter
  rw [if_neg hiam, if_neg hbye]

/-- The frames that a removal sends do not change the registry. -/
theorem users_run_removeUsrByAddr (w : World) :
    ((removeUsrByAddr addr).run w).2.users = w.usersAfter conn addr Verb.bye := by
  have hiam : Verb.bye.take 3 ≠ Verb.iam := by decide
  unfold World.usersAfter
  rw [if_neg hiam, if_pos rfl, run_removeUsrByAddr]
  cases w.users.find? fun i => i.addr == addr with
  | none => rfl
  | some toRem =>
      by_cases hopen : w.isOpen toRem.conn = true
      · simp only [if_pos hopen]
        exact keeps_broadcastUoff_of (I := fun w' => w'.users = w.users.erase toRem)
          (fun _ _ _ h => h) (w.withdrawn toRem) rfl
      · simp only [if_neg hopen]
        rfl

/-- **The registry after a request.** -/
theorem users_run_dispatch (newStr : Str) (w : World) :
    ((dispatch conn addr newStr).run w).2.users = w.usersAfter conn addr newStr := by
  rcases branch_cases newStr with rfl | hiam | rfl | hto | hmorf | rfl | hother
  · have hme2u : dispatch conn addr Verb.me2u = _ := dispatch_me2u conn addr
    rw [usersAfter_of_take_two conn addr rfl (by decide), hme2u, run_send_again_snd,
      World.logged_users]
  · rw [run_dispatch_iam conn addr hiam, World.usersAfter, if_pos hiam]
    cases hname : checkUserExists w.users (newStr.drop 4) with
    | true => simp
    | false =>
        cases hopen : w.isOpen conn with
        | true => simp [World.loggedIn]
        | false => simp
  · have hlistu : dispatch conn addr Verb.listu = _ := dispatch_listu conn addr
    rw [usersAfter_of_take_two conn addr rfl (by decide), hlistu, Eff.run_get_bind,
      run_send_again_snd, World.logged_users]
  · rw [usersAfter_of_take_two conn addr hto (by decide)]
    rcases run_dispatch_to_snd conn addr w hto with
      ⟨hrun, -⟩ | ⟨name, msg, -, -, ⟨i, s, -, -, hrun⟩ | ⟨-, hrun⟩⟩
    · rw [hrun]
    · rw [hrun, World.logged_users]
    · rw [hrun, World.logged_users]
  · rw [usersAfter_of_take_two conn addr (take_two_of_take (by decide) hmorf) (by decide),
      run_dispatch_morf_snd conn addr hmorf]
    exact keeps_sendOtToUsr_of (I := fun w' => w'.users = w.users) (fun _ _ _ _ _ _ h => h) w rfl
  · rw [run_dispatch_bye_snd, users_run_removeUsrByAddr conn addr]
  · rw [dispatch_of_other conn addr hother, World.usersAfter, if_neg hother.2.1,
      if_neg hother.2.2.2.2.2]
    rfl

end Users

/-! ## What a request sends -/

/-- What may be sent on a request, each frame with the connection it is for. -/
inductive Sends (users : List User) (conn : Conn) (addr : Addr) (newStr : Str) : Conn → Str → Prop
  | u2em : newStr = Verb.me2u → Sends users conn addr newStr conn Verb.u2em
  | mai : newStr.take 3 = Verb.iam → Sends users conn addr newStr conn Verb.mai
  | motd : newStr.take 3 = Verb.iam → Sends users conn addr newStr conn (Verb.motd ++ ' ' :: motd)
  | utsil : newStr = Verb.listu →
      Sends users conn addr newStr conn (Verb.utsil ++ ' ' :: getUsers users)
  | fromUser {i : User} {s name msg : Str} : newStr.take 2 = Verb.toUser →
      newStr.drop 3 = name ++ ' ' :: msg → ' ' ∉ name → users.find? (·.name == name) = some i →
      getNameFromAddr users addr = some s →
      Sends users conn addr newStr i.conn (Verb.fromUser ++ ' ' :: (s ++ ' ' :: msg))
  | edne {name msg : Str} : newStr.take 2 = Verb.toUser → newStr.drop 3 = name ++ ' ' :: msg →
      ' ' ∉ name → users.find? (·.name == name) = none →
      Sends users conn addr newStr conn (Verb.edne ++ ' ' :: name)
  | ot {i : User} {s : Str} : newStr.take 4 = Verb.morf → i ∈ users → i.name = newStr.drop 5 →
      getNameFromAddr users addr = some s →
      Sends users conn addr newStr i.conn (Verb.ot ++ ' ' :: s)
  | eyb {toRem : User} : newStr = Verb.bye → users.find? (·.addr == addr) = some toRem →
      Sends users conn addr newStr toRem.conn Verb.eyb
  | uoff {toRem i : User} : newStr = Verb.bye → users.find? (·.addr == addr) = some toRem →
      i ∈ users.erase toRem →
      Sends users conn addr newStr i.conn (Verb.uoff ++ ' ' :: toRem.name)

/-- Since `w₀`, frames were sent of which each may be sent on the request. -/
def World.SentSince (w₀ : World) (conn : Conn) (addr : Addr) (newStr : Str) (w : World) : Prop :=
  ∃ new, w.sent = w₀.sent ++ new ∧
    ∀ s ∈ new, ∃ body, s.frame = encode (ending body) ∧ Sends w₀.users conn addr newStr s.conn body

section Sent

variable (conn : Conn) (addr : Addr) {newStr : Str} {w₀ : World}

/-- Nothing was sent yet. -/
theorem World.SentSince.refl (w₀ : World) : w₀.SentSince conn addr newStr w₀ :=
  ⟨[], by simp, by simp⟩

variable {conn addr}

/-- A further frame that the request may send. -/
theorem World.SentSince.logged {w : World} (h : w₀.SentSince conn addr newStr w) {c : Conn}
    {body : Str} (hbody : Sends w₀.users conn addr newStr c body) :
    w₀.SentSince conn addr newStr (w.logged c (encode (ending body))) := by
  obtain ⟨new, hsent, hnew⟩ := h
  refine ⟨new ++ [⟨c, encode (ending body), w.isOpen c⟩], ?_, ?_⟩
  · rw [World.logged_sent, hsent, List.append_assoc]
  · rw [List.forall_mem_append]
    refine ⟨hnew, fun s hs => ?_⟩
    rw [List.mem_singleton.mp hs]
    exact ⟨body, rfl, hbody⟩

variable (conn addr)

/-- **What a request sends** is among what it may send. -/
theorem sent_run_dispatch (newStr : Str) (w : World) :
    w.SentSince conn addr newStr ((dispatch conn addr newStr).run w).2 := by
  have hrefl : w.SentSince conn addr newStr w := .refl conn addr w
  rcases branch_cases newStr with rfl | hiam | rfl | hto | hmorf | rfl | hother
  · have hme2u : dispatch conn addr Verb.me2u = _ := dispatch_me2u conn addr
    rw [hme2u, run_send_again_snd]
    exact hrefl.logged (.u2em rfl)
  · rw [run_dispatch_iam conn addr hiam]
    split_ifs
    · exact hrefl
    · exact (hrefl.logged (.mai hiam)).logged (.motd hiam)
    · exact hrefl.logged (.mai hiam)
  · have hlistu : dispatch conn addr Verb.listu = _ := dispatch_listu conn addr
    rw [hlistu, Eff.run_get_bind, run_send_again_snd]
    exact hrefl.logged (.utsil rfl)
  · rcases run_dispatch_to_snd conn addr w hto with
      ⟨hrun, -⟩ | ⟨name, msg, hcut, hspace, ⟨i, s, hfind, hs, hrun⟩ | ⟨hfind, hrun⟩⟩
    · rw [hrun]
      exact hrefl
    · rw [hrun]
      exact hrefl.logged (.fromUser hto hcut hspace hfind hs)
    · rw [hrun]
      exact hrefl.logged (.edne hto hcut hspace hfind)
  · rw [run_dispatch_morf_snd conn addr hmorf]
    refine keeps_sendOtToUsr_of (fun i hi hname s hs w' hw' => ?_) w hrefl
    exact hw'.logged (.ot hmorf hi hname hs)
  · rw [run_dispatch_bye_snd, run_removeUsrByAddr]
    cases hfind : w.users.find? fun i => i.addr == addr with
    | none => exact hrefl
    | some toRem =>
        have heyb := hrefl.logged (.eyb rfl hfind)
        by_cases hopen : w.isOpen toRem.conn = true
        · simp only [if_pos hopen]
          refine keeps_broadcastUoff_of (fun i hi w' hw' => ?_) (w.withdrawn toRem) heyb
          exact hw'.logged (.uoff rfl hfind hi)
        · simp only [if_neg hopen]
          exact heyb
  · rw [dispatch_of_other conn addr hother]
    exact hrefl

end Sent

/-! ## What a request keeps -/

/-- **Frame rule.** A request keeps what the frames sent, the connections closed and the changes of
the registry keep. -/
theorem keeps_dispatch_of {I : World → Prop} (hlog : ∀ w c f, I w → I (w.logged c f))
    (hclose : ∀ w c, I w → I { w with isOpen := Function.update w.isOpen c false })
    (husers : ∀ w us, I w → I { w with users := us }) (conn : Conn) (addr : Addr) (newStr : Str) :
    Eff.Keeps I (dispatch conn addr newStr) := by
  have hsend : ∀ c f, Eff.Keeps I (send c f) := fun c f => keeps_send fun w => hlog w c f
  have hshut : ∀ c, Eff.Keeps I (close c) := fun c => .modify fun w => hclose w c
  intro w hw
  rcases branch_cases newStr with rfl | hiam | rfl | hto | hmorf | rfl | hother
  · have hme2u : dispatch conn addr Verb.me2u = _ := dispatch_me2u conn addr
    rw [hme2u, run_send_again_snd]
    exact hlog w _ _ hw
  · rw [run_dispatch_iam conn addr hiam]
    split_ifs
    · exact hw
    · exact husers _ _ (hlog _ _ _ (hlog w _ _ hw))
    · exact hlog w _ _ hw
  · have hlistu : dispatch conn addr Verb.listu = _ := dispatch_listu conn addr
    rw [hlistu, Eff.run_get_bind, run_send_again_snd]
    exact hlog w _ _ hw
  · rcases run_dispatch_to_snd conn addr w hto with
      ⟨hrun, -⟩ | ⟨name, msg, -, -, ⟨i, s, -, -, hrun⟩ | ⟨-, hrun⟩⟩
    · rwa [hrun]
    · rw [hrun]
      exact hlog w _ _ hw
    · rw [hrun]
      exact hlog w _ _ hw
  · rw [run_dispatch_morf_snd conn addr hmorf]
    exact keeps_sendOtToUsr_of (fun _ _ _ _ _ w => hlog w _ _) w hw
  · rw [run_dispatch_bye_snd]
    refine Eff.Keeps.get_bind (fun w hw => ?_) w hw
    cases w.users.find? fun i => i.addr == addr with
    | none => exact hw
    | some toRem =>
        have hkeeps : Eff.Keeps I (do
            send toRem.conn (encode (ending Verb.eyb))
            close toRem.conn
            Eff.modify fun w => { w with users := w.users.erase toRem }
            let w ← Eff.get
            broadcastUoff w.users toRem.name) := by
          refine .bind (hsend _ _) fun _ => .bind (hshut _) fun _ => ?_
          refine .bind (.modify fun w => husers w _) fun _ => .get_bind fun w hw => ?_
          exact keeps_broadcastUoff_of (fun _ _ w => hlog w _ _) w hw
        exact hkeeps w hw
  · rw [dispatch_of_other conn addr hother]
    exact hclose w _ hw

/-- A request opens no connection. -/
theorem isOpen_of_run_dispatch {conn : Conn} {addr : Addr} {newStr : Str} {w : World} {c : Conn}
    (h : ((dispatch conn addr newStr).run w).2.isOpen c = true) : w.isOpen c = true := by
  refine keeps_dispatch_of (I := fun w' => w'.isOpen c = true → w.isOpen c = true)
    (fun _ _ _ h => h) (fun w' d hw' hc => ?_) (fun _ _ h => h) conn addr newStr w id h
  apply hw'
  by_cases hd : c = d
  · simp [hd] at hc
  · simpa [Function.update_of_ne hd] using hc

/-! ## Distinct names -/

/-- A name is free if no entry has it. -/
theorem checkUserExists_eq_false_iff {users : List User} {name : Str} :
    checkUserExists users name = false ↔ ∀ u ∈ users, u.name ≠ name := by
  simp [checkUserExists]

/-- The entries after a request: those before, and one of a free name. -/
theorem mem_usersAfter {w : World} {conn : Conn} {addr : Addr} {newStr : Str} {u : User}
    (h : u ∈ w.usersAfter conn addr newStr) :
    u ∈ w.users ∨ newStr.take 3 = Verb.iam ∧ u = ⟨newStr.drop 4, conn, addr⟩ ∧
      checkUserExists w.users (newStr.drop 4) = false ∧ w.isOpen conn = true := by
  unfold World.usersAfter at h
  split at h
  · next hiam =>
      split at h
      · next hnew =>
          rcases List.mem_append.mp h with h | h
          · exact .inl h
          · exact .inr ⟨hiam, List.mem_singleton.mp h, hnew⟩
      · exact .inl h
  · split at h
    · split at h
      · exact .inl h
      · split at h
        · exact .inl (List.mem_of_mem_erase h)
        · exact .inl h
    · exact .inl h

/-- A request keeps a property of names or connections distinct, if the entry it may add does. -/
theorem nodup_map_usersAfter {α : Type} {f : User → α} {w : World} {conn : Conn} {addr : Addr}
    {newStr : Str} (h : (w.users.map f).Nodup)
    (hnew : newStr.take 3 = Verb.iam → checkUserExists w.users (newStr.drop 4) = false →
      ∀ u ∈ w.users, f u ≠ f ⟨newStr.drop 4, conn, addr⟩) :
    ((w.usersAfter conn addr newStr).map f).Nodup := by
  unfold World.usersAfter
  split
  · next hiam =>
      split
      · next hfree =>
          rw [List.map_append]
          apply h.append (List.nodup_singleton _)
          intro a ha hb
          obtain ⟨u, hu, rfl⟩ := List.mem_map.mp ha
          exact hnew hiam hfree.1 u hu (List.mem_singleton.mp hb)
      · exact h
  · split
    · split
      · exact h
      · split
        · exact h.sublist (List.erase_sublist.map f)
        · exact h
    · exact h

/-- A request keeps names distinct. -/
theorem names_nodup_run_dispatch {w : World} (h : (w.users.map User.name).Nodup) (conn : Conn)
    (addr : Addr) (newStr : Str) :
    (((dispatch conn addr newStr).run w).2.users.map User.name).Nodup := by
  rw [users_run_dispatch]
  exact nodup_map_usersAfter h fun _ hfree => checkUserExists_eq_false_iff.mp hfree

/-! ## The two searches -/

/-- Nobody of that name is told. -/
theorem sendOtToUsr_of_forall_ne {users : List User} {name : Str} (h : ∀ u ∈ users, u.name ≠ name)
    (fromName : Option Str) : sendOtToUsr users name fromName = pure () := by
  induction users with
  | nil => rfl
  | cons i users ih =>
      rw [sendOtToUsr, if_neg (h i (by simp)), ih fun u hu => h u (by simp [hu])]

/-- Where names are distinct, one user at most is told. -/
theorem run_sendOtToUsr_of_find {users : List User} (hnd : (users.map User.name).Nodup) {name : Str}
    {i : User} (hfind : users.find? (·.name == name) = some i) (s : Str) (w : World) :
    (sendOtToUsr users name (some s)).run w =
      (if w.isOpen i.conn then .ok () else .error .osError,
        w.logged i.conn (encode (ending (Verb.ot ++ ' ' :: s)))) := by
  induction users with
  | nil => cases hfind
  | cons u users ih =>
      rw [List.map_cons, List.nodup_cons] at hnd
      rw [sendOtToUsr]
      by_cases hu : u.name = name
      · rw [List.find?_cons_of_pos (by simpa using hu)] at hfind
        obtain rfl := Option.some.inj hfind
        have hrest : ∀ v ∈ users, v.name ≠ name := by
          rintro v hv rfl
          exact hnd.1 (hu ▸ List.mem_map_of_mem hv)
        rw [if_pos hu, sendOtToUsr_of_forall_ne hrest, nameText, Eff.run_pure_bind, Eff.run_bind,
          run_send]
        by_cases hopen : w.isOpen u.conn = true <;> simp [hopen]
      · rw [List.find?_cons_of_neg (by simpa using hu)] at hfind
        rw [if_neg hu, ih hnd.2 hfind]

/-- What happens to the server keeps names distinct. -/
theorem names_nodup_after {w : World} (h : (w.users.map User.name).Nodup) (e : Event) :
    ((w.after e).users.map User.name).Nodup := by
  cases e with
  | opens conn | drops conn => exact h
  | received conn addr data =>
      rw [World.after, handleData]
      cases requestString data with
      | none => exact h
      | some newStr => exact names_nodup_run_dispatch h conn addr newStr

/-- **Names are distinct** in every run. -/
theorem names_nodup_of_reachable {w : World} (h : Reachable World.Initial World.Step w) :
    (w.users.map User.name).Nodup := by
  refine h.invariant (I := fun w => (w.users.map User.name).Nodup) ?_ ?_
  · rintro w ⟨husers, -⟩
    simp [husers]
  · rintro w e w' hw - rfl
    exact names_nodup_after hw e

/-- **Routing.** In every run of the server names are distinct, so that a `TO` and a `MORF` from a
registered sender send one frame each, to the same connection, where the name is registered, and
none where it is not. -/
theorem routing_agrees {w : World} (h : Reachable World.Initial World.Step w) :
    (w.users.map User.name).Nodup ∧
      ∀ addr s, getNameFromAddr w.users addr = some s → ∀ name msg,
        (checkUserExists w.users name = true → ∃ c,
          ((findUserToSendMsgTo w.users name msg (some s)).run w).2.sent =
            w.sent ++ [⟨c, encode (ending (Verb.fromUser ++ ' ' :: (s ++ ' ' :: msg))),
              w.isOpen c⟩] ∧
          ((sendOtToUsr w.users name (some s)).run w).2.sent =
            w.sent ++ [⟨c, encode (ending (Verb.ot ++ ' ' :: s)), w.isOpen c⟩]) ∧
        (checkUserExists w.users name = false →
          ((findUserToSendMsgTo w.users name msg (some s)).run w).2 = w ∧
          ((sendOtToUsr w.users name (some s)).run w).2 = w) := by
  have hnd : (w.users.map User.name).Nodup := names_nodup_of_reachable h
  refine ⟨hnd, fun addr s _ name msg => ⟨fun hex => ?_, fun hfree => ?_⟩⟩
  · rw [checkUserExists_eq] at hex
    obtain ⟨i, hfind⟩ := Option.isSome_iff_exists.mp hex
    refine ⟨i.conn, ?_, ?_⟩
    · rw [run_findUserToSendMsgTo_of_find hfind]
      rfl
    · rw [run_sendOtToUsr_of_find hnd hfind]
      rfl
  · have hnone : w.users.find? (·.name == name) = none := find?_eq_none_of_free hfree
    refine ⟨?_, ?_⟩
    · rw [findUserToSendMsgTo_eq, hnone]
      rfl
    · rw [sendOtToUsr_of_forall_ne (checkUserExists_eq_false_iff.mp hfree)]
      rfl

/-- The server after one client has registered. -/
private def oneClient : World := ⟨[⟨['a'], 0, 0⟩],
  fun _ => true, [⟨0, wire Verb.mai, true⟩, ⟨0, wire (Verb.motd ++ ' ' :: motd), true⟩]⟩

/-- The server after a second one has. -/
private def twoClients : World := ⟨[⟨['a'], 0, 0⟩, ⟨['b'], 1, 1⟩], fun _ => true,
  oneClient.sent ++ [⟨1, wire Verb.mai, true⟩, ⟨1, wire (Verb.motd ++ ' ' :: motd), true⟩]⟩

private theorem reachable_two : Reachable World.Initial World.Step twoClients := by
  have hone : Reachable World.Initial World.Step oneClient := by
    refine Reachable.next (s := ⟨[], fun _ => true, []⟩)
      (e := .received 0 0 (wire (Request.iam ['a']).render)) (.start ⟨rfl, rfl⟩) ?_
    rw [World.Step, World.after,
      handleData_wire 0 0 (q := .iam ['a']) (show '\r' ∉ ['a'] by decide),
      run_dispatch_iam_of_free 0 0 rfl rfl]
    rfl
  refine hone.next (e := .received 1 1 (wire (Request.iam ['b']).render)) ?_
  rw [World.Step, World.after, handleData_wire 1 1 (q := .iam ['b']) (show '\r' ∉ ['b'] by decide),
    run_dispatch_iam_of_free 1 1 rfl rfl]
  rfl

/-- A message and a confirmation of `a` for `b` go to one connection, and those for nobody
nowhere. -/
theorem routing_agrees_two_clients :
    Reachable World.Initial World.Step twoClients ∧
      (∃ c, ((findUserToSendMsgTo twoClients.users ['b'] ['h'] (some ['a'])).run
        twoClients).2.sent =
          twoClients.sent ++ [⟨c, encode (ending ['F', 'R', 'O', 'M', ' ', 'a', ' ', 'h']), true⟩] ∧
        ((sendOtToUsr twoClients.users ['b'] (some ['a'])).run twoClients).2.sent =
          twoClients.sent ++ [⟨c, encode (ending ['O', 'T', ' ', 'a']), true⟩]) ∧
      ((findUserToSendMsgTo twoClients.users ['c'] ['h'] (some ['a'])).run twoClients).2 =
        twoClients ∧
      ((sendOtToUsr twoClients.users ['c'] (some ['a'])).run twoClients).2 = twoClients := by
  have hroutes := (routing_agrees reachable_two).2 0 ['a'] rfl
  exact ⟨reachable_two, (hroutes ['b'] ['h']).1 rfl, (hroutes ['c'] ['h']).2 rfl⟩

end ME2U.Server
