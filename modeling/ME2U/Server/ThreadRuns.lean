import Mathlib.Logic.Relation
import ME2U.Found.Simulation
import ME2U.Server.Failures
import ME2U.Server.Identity
import ME2U.Server.Threads

/-!
# A thread that nobody interferes with

When a thread takes its steps one after the other, it does what the functions of the handler do at
once. So every run of the server in which requests are handled one at a time is a run of its
threads.

* `CarriesOut`: a thread does, step by step, what a computation does at once.
* `carriesOut_dispatch`: the steps for a request are the branch of `dispatch`.
* `Threads.of_listener`: the threads can do what the server does that handles one request at a time.
-/

namespace ME2U.Server

namespace Shared

variable (σ : Shared)

@[simp] theorem users_recorded (ds : List Deed) : (σ.recorded ds).users = σ.users := rfl

@[simp] theorem world_recorded (ds : List Deed) : (σ.recorded ds).world = σ.world := rfl

@[simp] theorem accepted_recorded (ds : List Deed) : (σ.recorded ds).accepted = σ.accepted := rfl

@[simp] theorem recorded_recorded (ds ds' : List Deed) :
    (σ.recorded ds).recorded ds' = σ.recorded (ds ++ ds') := by
  unfold recorded
  rw [List.append_assoc]

end Shared

section Alone

variable {conn : Conn} {addr : Addr}

/-! ## Steps in a row -/

/-- The thread of the connection gets from one point to another, with nobody in between. -/
def Goes (conn : Conn) (addr : Addr) : Pc × Shared → Pc × Shared → Prop :=
  Relation.ReflTransGen fun x y => ∃ a, x.1.next conn addr x.2 = some (a, y.1) ∧
    y.2 = x.2.after conn a

theorem Goes.refl (x : Pc × Shared) : Goes conn addr x x := Relation.ReflTransGen.refl

/-- One step, and then the rest. -/
theorem Goes.head {pc pc' : Pc} {σ : Shared} {a : Act} {y : Pc × Shared}
    (hstep : pc.next conn addr σ = some (a, pc')) (h : Goes conn addr (pc', σ.after conn a) y) :
    Goes conn addr (pc, σ) y :=
  Relation.ReflTransGen.head ⟨a, hstep, rfl⟩ h

/-- One run behind the other. -/
theorem Goes.trans {x y z : Pc × Shared} (h : Goes conn addr x y) (h' : Goes conn addr y z) :
    Goes conn addr x z :=
  Relation.ReflTransGen.trans h h'

/-- Where a thread goes on after a computation. -/
def Pc.goesOn {α : Type} (f : α → Pc) : Except PyExc α → Pc
  | .ok a => f a
  | .error e => raised e

/-- **A thread carries out a computation**: from `pc` on, it does what `m` does, and goes on at
`f a` where that returns `a`. -/
def CarriesOut (conn : Conn) (addr : Addr) (pc : Pc) (σ : Shared) {α : Type}
    (m : Py α) (f : α → Pc) :
    Prop :=
  ∃ σ', Goes conn addr (pc, σ) (Pc.goesOn f (m.run σ.world).1, σ') ∧ σ'.world = (m.run σ.world).2 ∧
    σ'.accepted = σ.accepted

namespace CarriesOut

variable {α β : Type} {pc pc' : Pc} {σ : Shared} {m : Py α} {f : α → Pc}

theorem pure (a : α) (f : α → Pc) : CarriesOut conn addr (f a) σ (Pure.pure a : Py α) f :=
  ⟨σ, .refl _, rfl, rfl⟩

theorem stop (e : PyExc) (f : α → Pc) : CarriesOut conn addr (.raised e) σ (Eff.stop e : Py α) f :=
  ⟨σ, .refl _, rfl, rfl⟩

/-- The thread may first look around. -/
theorem of_goes {ds : List Deed} (hgoes : Goes conn addr (pc, σ) (pc', σ.recorded ds))
    (h : CarriesOut conn addr pc' (σ.recorded ds) m f) : CarriesOut conn addr pc σ m f := by
  obtain ⟨σ', hgoes', hworld, haccepted⟩ := h
  exact ⟨σ', hgoes.trans hgoes', hworld, haccepted⟩

/-- A step, and what the computation does after it. -/
theorem of_step {m' : Py α} {a : Act} (hstep : pc.next conn addr σ = some (a, pc'))
    (h : CarriesOut conn addr pc' (σ.after conn a) m f)
    (hrun : m'.run σ.world = m.run (σ.after conn a).world) :
    CarriesOut conn addr pc σ m' f := by
  obtain ⟨σ', hgoes, hworld, haccepted⟩ := h
  rw [← hrun] at hgoes hworld
  exact ⟨σ', .head hstep hgoes, hworld, haccepted.trans (Shared.accepted_after σ conn a)⟩

/-- The thread looks at the list. -/
theorem of_look (hstep : pc.next conn addr σ = some (.looks, pc'))
    (h : CarriesOut conn addr pc' (σ.recorded [⟨conn, .looks⟩]) m f) :
    CarriesOut conn addr pc σ m f :=
  of_step hstep h rfl

/-- What a computation does depends on what it does from here. -/
theorem congr {m' : Py α} (h : CarriesOut conn addr pc σ m f)
    (hrun : m'.run σ.world = m.run σ.world) :
    CarriesOut conn addr pc σ m' f := by
  unfold CarriesOut
  rw [hrun]
  exact h

/-- A `send`, and the rest. -/
theorem send_bind {dest : Conn} {body : Str} {k : Unit → Py α}
    (hstep : pc.next conn addr σ = some (Pc.sending σ dest body pc'))
    (h : CarriesOut conn addr pc' (σ.after conn (.sends dest body)) (k ()) f) :
    CarriesOut conn addr pc σ (send dest (encode (ending body)) >>= k) f := by
  by_cases hopen : σ.world.isOpen dest = true
  · have hnext : pc.next conn addr σ = some (.sends dest body, pc') := by
      rw [hstep]
      exact congrArg _ (congrArg _ (if_pos hopen))
    obtain ⟨σ', hgoes, hworld, haccepted⟩ := h
    unfold CarriesOut
    rw [run_send_bind_of_isOpen hopen]
    exact ⟨σ', .head hnext hgoes, hworld, haccepted⟩
  · have hnext : pc.next conn addr σ = some (.sends dest body, .raised .osError) := by
      rw [hstep]
      exact congrArg _ (congrArg _ (if_neg hopen))
    have hrun : (send dest (encode (ending body)) >>= k).run σ.world =
        (.error .osError, σ.world.logged dest (encode (ending body))) := by
      refine Eff.run_bind_error ?_ k
      rw [run_send, if_neg hopen]
    unfold CarriesOut
    rw [hrun]
    exact ⟨_, .head hnext (.refl _), rfl, rfl⟩

/-- One computation after another. -/
theorem bind {k : α → Py β} {g : β → Pc} (h : CarriesOut conn addr pc σ m f)
    (hk : ∀ a σ', CarriesOut conn addr (f a) σ' (k a) g) :
    CarriesOut conn addr pc σ (m >>= k) g := by
  obtain ⟨σ₁, hgoes, hworld, haccepted⟩ := h
  cases hrun : m.run σ.world with
  | mk out w =>
      rw [hrun] at hgoes hworld
      obtain rfl : σ₁.world = w := hworld
      cases out with
      | error e =>
          unfold CarriesOut
          rw [Eff.run_bind_error hrun]
          exact ⟨σ₁, hgoes, rfl, haccepted⟩
      | ok a =>
          obtain ⟨σ₂, hgoes₂, hworld₂, haccepted₂⟩ := hk a σ₁
          unfold CarriesOut
          rw [Eff.run_bind_ok hrun]
          exact ⟨σ₂, hgoes.trans hgoes₂, hworld₂, haccepted₂.trans haccepted⟩

end CarriesOut

/-! ## The loops -/

/-- The iterator is at the end of the list. -/
theorem getElem?_end {users pre : List Entry} (h : users = pre ++ []) :
    users[pre.length]? = none := by
  rw [h, List.append_nil, List.getElem?_eq_none le_rfl]

/-- The iterator is at an entry. -/
theorem getElem?_at {users pre post : List Entry} {i : Entry} (h : users = pre ++ i :: post) :
    users[pre.length]? = some i := by
  rw [h, List.getElem?_append_right le_rfl, Nat.sub_self]
  rfl

/-- A loop that looks for an entry finds the first one. -/
theorem goes_seeking (conn : Conn) (addr : Addr) (loop : ℕ → Pc) {halts : Entry → Bool}
    {found : Entry → Pc} {exhausted : Pc} (hstep : ∀ σ idx, (loop idx).next conn addr σ =
      some (Pc.seeking σ idx halts found (loop (idx + 1)) exhausted)) (σ : Shared) :
    ∃ ds, Goes conn addr (loop 0, σ)
      (match σ.users.find? halts with
        | none => exhausted
        | some i => found i, σ.recorded ds) := by
  have hfrom : ∀ (post pre : List Entry) (σ : Shared), σ.users = pre ++ post →
      ∃ ds, Goes conn addr (loop pre.length, σ) (match post.find? halts with
        | none => exhausted
        | some i => found i, σ.recorded ds) := by
    intro post
    induction post with
    | nil =>
        intro pre σ hσ
        have hat := getElem?_end hσ
        refine ⟨[⟨conn, .looks⟩], .head (a := .looks) ?_ (.refl _)⟩
        rw [hstep, Pc.seeking, hat]
        rfl
    | cons i post ih =>
        intro pre σ hσ
        have hat := getElem?_at hσ
        by_cases hi : halts i = true
        · rw [List.find?_cons_of_pos hi]
          refine ⟨[⟨conn, .looks⟩], .head (a := .looks) ?_ (.refl _)⟩
          rw [hstep, Pc.seeking, hat]
          exact congrArg _ (congrArg _ (if_pos hi))
        · rw [List.find?_cons_of_neg hi]
          have hsplit : (σ.recorded [⟨conn, .looks⟩]).users = (pre ++ [i]) ++ post := by simp [hσ]
          obtain ⟨ds, hgoes⟩ := ih (pre ++ [i]) _ hsplit
          rw [List.length_append, List.length_singleton, Shared.recorded_recorded] at hgoes
          refine ⟨_, .head (a := .looks) ?_ hgoes⟩
          rw [hstep, Pc.seeking, hat]
          exact congrArg _ (congrArg _ (if_neg hi))
  exact hfrom σ.users [] σ rfl

/-- The loop of `get_users`. -/
theorem goes_getUsers (conn : Conn) (addr : Addr) (σ : Shared) :
    ∃ ds, Goes conn addr (.getUsers [] 0, σ)
    (.reply (Verb.utsil ++ ' ' :: getUsers σ.world.users), σ.recorded ds) := by
  have hfrom : ∀ (post pre : List Entry) (toRet : Str) (σ : Shared), σ.users = pre ++ post →
      ∃ ds, Goes conn addr (.getUsers toRet pre.length, σ)
        (.reply (Verb.utsil ++ ' ' ::
          (post.map Entry.user).foldl (fun toRet usr => toRet ++ ' ' :: usr.name) toRet),
              σ.recorded ds) := by
    intro post
    induction post with
    | nil =>
        intro pre toRet σ hσ
        have hat := getElem?_end hσ
        refine ⟨[⟨conn, .looks⟩], .head (a := .looks) ?_ (.refl _)⟩
        rw [Pc.next, hat]
        rfl
    | cons i post ih =>
        intro pre toRet σ hσ
        have hat := getElem?_at hσ
        have hsplit : (σ.recorded [⟨conn, .looks⟩]).users = (pre ++ [i]) ++ post := by simp [hσ]
        obtain ⟨ds, hgoes⟩ := ih (pre ++ [i]) (toRet ++ ' ' :: i.user.name) _ hsplit
        rw [List.length_append, List.length_singleton, Shared.recorded_recorded] at hgoes
        refine ⟨_, .head (a := .looks) ?_ hgoes⟩
        rw [Pc.next, hat]
  exact hfrom σ.users [] [] σ rfl

/-- The loop of `send_ot_to_usr`. -/
theorem carriesOut_sendOtToUsr (name : Str) (fromName : Option Str) :
    ∀ (post pre : List Entry) (σ : Shared), σ.users = pre ++ post →
      CarriesOut conn addr (.sendOtToUsr name fromName pre.length) σ
        (sendOtToUsr (post.map Entry.user) name fromName) fun _ => .recv := by
  intro post
  induction post with
  | nil =>
      intro pre σ hσ
      have hat := getElem?_end hσ
      refine .of_look ?_ (.pure () fun _ => .recv)
      rw [Pc.next, Pc.seeking, hat]
  | cons i post ih =>
      intro pre σ hσ
      have hat := getElem?_at hσ
      have hlength : pre.length + 1 = (pre ++ [i]).length := by simp
      have hsplit : σ.users = (pre ++ [i]) ++ post := by simp [hσ]
      rw [List.map_cons]
      unfold sendOtToUsr
      by_cases hi : i.user.name = name
      · rw [if_pos hi]
        cases fromName with
        | none =>
            refine .of_look ?_ (.stop .typeError _)
            rw [Pc.next, Pc.seeking, hat]
            exact congrArg _ (congrArg _ (if_pos (by simpa using hi)))
        | some s =>
            have hlook : (Pc.sendOtToUsr name (some s) pre.length).next conn addr σ =
                some (.looks, .sendOt name s (pre.length + 1) i.user.conn) := by
              rw [Pc.next, Pc.seeking, hat]
              exact congrArg _ (congrArg _ (if_pos (by simpa using hi)))
            refine .of_look hlook (.send_bind rfl ?_)
            rw [hlength]
            exact ih (pre ++ [i]) _ hsplit
      · rw [if_neg hi]
        have hlook : (Pc.sendOtToUsr name fromName pre.length).next conn addr σ =
            some (.looks, .sendOtToUsr name fromName (pre.length + 1)) := by
          rw [Pc.next, Pc.seeking, hat]
          exact congrArg _ (congrArg _ (if_neg (by simpa using hi)))
        refine .of_look hlook ?_
        rw [hlength]
        exact ih (pre ++ [i]) _ hsplit

/-- The second loop of `remove_usr_by_addr`. -/
theorem carriesOut_broadcastUoff (name : Str) :
    ∀ (post pre : List Entry) (σ : Shared), σ.users = pre ++ post →
      CarriesOut conn addr (.broadcastUoff name pre.length) σ
        (broadcastUoff (post.map Entry.user) name) fun _ => .recv := by
  intro post
  induction post with
  | nil =>
      intro pre σ hσ
      have hat := getElem?_end hσ
      refine .of_look ?_ (.pure () fun _ => .recv)
      rw [Pc.next, Pc.seeking, hat]
  | cons i post ih =>
      intro pre σ hσ
      have hat := getElem?_at hσ
      have hlength : pre.length + 1 = (pre ++ [i]).length := by simp
      have hsplit : σ.users = (pre ++ [i]) ++ post := by simp [hσ]
      have hlook : (Pc.broadcastUoff name pre.length).next conn addr σ =
          some (.looks, .sendUoff name (pre.length + 1) i.user.conn) := by
        rw [Pc.next, Pc.seeking, hat]
        rfl
      rw [List.map_cons]
      unfold broadcastUoff
      refine .of_look hlook (.send_bind rfl ?_)
      rw [hlength]
      exact ih (pre ++ [i]) _ hsplit

/-! ## One request -/

/-- Where the loop of the thread goes on after a request. -/
def Pc.loopCtl : LoopCtl → Pc
  | .again => recv
  | .leave => left

/-- A thread carries an `IAM` out. -/
theorem carriesOut_iam {newStr : Str} (h : newStr.take 3 = Verb.iam) (σ : Shared) :
    CarriesOut conn addr (.checkUserExists (newStr.drop 4) 0)
    σ (dispatch conn addr newStr) Pc.loopCtl := by
  obtain ⟨ds, hgoes⟩ :=
    goes_seeking conn addr (Pc.checkUserExists (newStr.drop 4)) (fun _ _ => rfl) σ
  have hexists : checkUserExists σ.world.users (newStr.drop 4) =
      (σ.users.find? fun x => x.user.name == newStr.drop 4).isSome := by
    unfold checkUserExists Shared.world
    rw [List.any_map, ← List.isSome_find?]
    rfl
  cases hfind : σ.users.find? fun x => x.user.name == newStr.drop 4 with
  | some i =>
      rw [hfind] at hgoes hexists
      refine .of_goes hgoes (.congr (.pure .leave Pc.loopCtl) ?_)
      show (dispatch conn addr newStr).run σ.world = _
      rw [dispatch_of_take_iam conn addr h, Eff.run_get_bind, hexists]
      rfl
  | none =>
      rw [hfind] at hgoes hexists
      refine .of_goes hgoes (.congr (m := do
        send conn (encode (ending Verb.mai))
        send conn (encode (ending (Verb.motd ++ ' ' :: motd)))
        Eff.modify fun w => { w with users := w.users ++ [⟨newStr.drop 4, conn, addr⟩] }
        pure .again) (.send_bind rfl (.send_bind rfl ?_)) ?_)
      · refine ⟨_, .head rfl (.refl _), ?_, rfl⟩
        show World.mk ((σ.users ++ [_]).map Entry.user) _ _ = _
        rw [List.map_append]
        rfl
      · show (dispatch conn addr newStr).run σ.world = _
        rw [dispatch_of_take_iam conn addr h, Eff.run_get_bind, hexists]
        rfl

/-- The name of the sender, as the loop finds it. -/
theorem getNameFromAddr_world (σ : Shared) (addr : Addr) : getNameFromAddr σ.world.users addr =
    (σ.users.find? fun i => i.user.addr == addr).map fun i => i.user.name := by
  unfold Shared.world
  rw [getNameFromAddr_eq_find?, List.find?_map, Option.map_map]
  rfl

/-- The look-up of the sender, before the call that it is for. -/
theorem goes_getNameFromAddr (conn : Conn) (addr : Addr) (call : Lookup) (σ : Shared) :
    ∃ ds, Goes conn addr (.getNameFromAddr call 0, σ)
      (call.called (getNameFromAddr σ.world.users addr), σ.recorded ds) := by
  obtain ⟨ds, hgoes⟩ := goes_seeking conn addr (Pc.getNameFromAddr call) (fun _ _ => rfl) σ
  refine ⟨ds, ?_⟩
  rw [getNameFromAddr_world]
  cases hfind : σ.users.find? fun i => i.user.addr == addr with
  | none =>
      rw [hfind] at hgoes
      exact hgoes
  | some i =>
      rw [hfind] at hgoes
      exact hgoes

/-- A thread carries out a `TO` whose receiver is the first word, -/
theorem carriesOut_toUser {newStr name msg : Str} (h : newStr.take 2 = Verb.toUser)
    (hcut : newStr.drop 3 = name ++ ' ' :: msg) (hname : ' ' ∉ name) (σ : Shared) :
    CarriesOut conn addr (.getNameFromAddr (.toUser name msg) 0)
    σ (dispatch conn addr newStr) Pc.loopCtl := by
  obtain ⟨ds, hgoes⟩ := goes_getNameFromAddr conn addr (.toUser name msg) σ
  refine .of_goes hgoes (.congr (m := do
    let found ← findUserToSendMsgTo σ.world.users name msg (getNameFromAddr σ.world.users addr)
    if found then pure .again
    else do
      send conn (encode (ending (Verb.edne ++ ' ' :: name)))
      pure .again) ?_ ?_)
  · obtain ⟨ds', hgoes'⟩ := goes_seeking conn addr
      (Pc.findUserToSendMsgTo name msg (getNameFromAddr σ.world.users addr))
        (fun _ _ => rfl) (σ.recorded ds)
    have hfind : σ.world.users.find? (·.name == name) =
        ((σ.recorded ds).users.find? fun i => i.user.name == name).map Entry.user := by
      unfold Shared.world
      rw [List.find?_map]
      rfl
    refine .of_goes hgoes' ?_
    rw [findUserToSendMsgTo_eq, hfind]
    cases (σ.recorded ds).users.find? fun i => i.user.name == name with
    | none => exact .congr (.send_bind rfl (.pure .again Pc.loopCtl)) rfl
    | some i =>
        cases getNameFromAddr σ.world.users addr with
        | none => exact .congr (.stop .typeError Pc.loopCtl) rfl
        | some s =>
            refine .congr (m := do
              send i.user.conn (encode (ending (Verb.fromUser ++ ' ' :: (s ++ ' ' :: msg))))
              pure .again) (.send_bind rfl (.pure .again Pc.loopCtl)) ?_
            dsimp only [Option.map]
            rw [Eff.bind_assoc]
            unfold nameText
            rw [Eff.run_pure_bind, Eff.bind_assoc]
            rfl
  · show (dispatch conn addr newStr).run σ.world = _
    rw [dispatch_of_take_toUser conn addr h, hcut, splitOnce_of_notMem hname, Eff.run_pure_bind,
      Eff.run_get_bind]
    rfl

/-- and a `MORF`. -/
theorem carriesOut_morf {newStr : Str} (h : newStr.take 4 = Verb.morf) (σ : Shared) :
    CarriesOut conn addr (.getNameFromAddr (.morf (newStr.drop 5)) 0) σ (dispatch conn addr newStr)
      Pc.loopCtl := by
  obtain ⟨ds, hgoes⟩ := goes_getNameFromAddr conn addr (.morf (newStr.drop 5)) σ
  refine .of_goes hgoes (.congr (m := do
    sendOtToUsr σ.world.users (newStr.drop 5) (getNameFromAddr σ.world.users addr)
    pure .again) ?_ ?_)
  · exact .bind (carriesOut_sendOtToUsr _ _ σ.users [] _ rfl) fun _ _ => .pure .again Pc.loopCtl
  · show (dispatch conn addr newStr).run σ.world = _
    rw [dispatch_of_take_morf conn addr h, Eff.run_get_bind]
    rfl

/-- The entry that the first loop finds is the one that `list.remove` removes. -/
theorem map_erase_of_find? {users : List Entry} {addr : Addr} {toRem : Entry}
    (hfind : users.find? (fun i => i.user.addr == addr) = some toRem) :
    (users.erase toRem).map Entry.user = (users.map Entry.user).erase toRem.user := by
  obtain ⟨haddr, pre, post, rfl, hpre⟩ := List.find?_eq_some_iff_append.mp hfind
  have hne : ∀ e ∈ pre, e.user ≠ toRem.user := by
    intro e he heq
    have hno := hpre e he
    rw [heq] at hno
    simp [haddr] at hno
  have hnotMem : toRem ∉ pre := fun hmem => hne toRem hmem rfl
  have hnotMem' : toRem.user ∉ pre.map Entry.user := by
    intro hmem
    obtain ⟨e, he, heq⟩ := List.mem_map.mp hmem
    exact hne e he heq
  rw [List.erase_append_right _ hnotMem, List.erase_cons_head, List.map_append, List.map_append,
    List.map_cons, List.erase_append_right _ hnotMem', List.erase_cons_head]

/-- A thread carries a `BYE` out. -/
theorem carriesOut_bye (σ : Shared) :
    CarriesOut conn addr (.removeUsrByAddr 0) σ (dispatch conn addr Verb.bye) Pc.loopCtl := by
  obtain ⟨ds, hgoes⟩ := goes_seeking conn addr Pc.removeUsrByAddr (fun _ _ => rfl) σ
  have hfind' : σ.world.users.find? (fun i => i.addr == addr) =
      (σ.users.find? fun i => i.user.addr == addr).map Entry.user := by
    unfold Shared.world
    rw [List.find?_map]
    rfl
  have hdispatch : dispatch conn addr Verb.bye = (do
      removeUsrByAddr addr
      pure .again) := dispatch_bye conn addr
  rw [hdispatch]
  refine .bind (f := fun _ => .recv) (.of_goes hgoes ?_) fun _ _ => .pure .again Pc.loopCtl
  cases hfind : σ.users.find? fun i => i.user.addr == addr with
  | none =>
      rw [hfind] at hfind'
      refine .congr (.stop .attributeError _) ?_
      show (removeUsrByAddr addr).run σ.world = _
      unfold removeUsrByAddr
      rw [Eff.run_get_bind, hfind']
      rfl
  | some toRem =>
      rw [hfind] at hfind'
      have hmem : toRem ∈ σ.users := List.mem_of_find?_eq_some hfind
      refine .congr (m := do
        send toRem.user.conn (encode (ending Verb.eyb))
        close toRem.user.conn
        Eff.modify fun w => { w with users := w.users.erase toRem.user }
        let w ← Eff.get
        broadcastUoff w.users toRem.user.name) (.send_bind rfl ?_) ?_
      · refine .of_step (a := .closes toRem.user.conn)
          (m := do
            Eff.modify fun w => { w with users := w.users.erase toRem.user }
            let w ← Eff.get
            broadcastUoff w.users toRem.user.name) rfl ?_ rfl
        refine .of_step (a := .removes toRem) (if_pos hmem)
          (carriesOut_broadcastUoff toRem.user.name (σ.users.erase toRem) [] _ rfl) ?_
        rw [map_erase_of_find? hfind, Eff.run_modify_bind, Eff.run_get_bind]
        show _ = (broadcastUoff _ _).run (World.mk ((σ.users.erase toRem).map Entry.user) _ _)
        rw [map_erase_of_find? hfind]
        rfl
      · show (removeUsrByAddr addr).run σ.world = _
        unfold removeUsrByAddr
        rw [Eff.run_get_bind, hfind']
        rfl

/-- **The steps for a request** are the branch of the dispatch. -/
theorem carriesOut_dispatch (newStr : Str) (σ : Shared) :
    CarriesOut conn addr (.start (treatment newStr)) σ (dispatch conn addr newStr) Pc.loopCtl := by
  rcases branch_cases newStr with rfl | hiam | rfl | hto | hmorf | rfl | hother
  · have hstep : (Pc.reply Verb.u2em).next conn addr σ = some (Pc.sending σ conn Verb.u2em .recv) :=
      rfl
    exact .congr (.send_bind hstep (.pure .again Pc.loopCtl)) rfl
  · rw [treatment_of_take_iam hiam]
    exact carriesOut_iam hiam σ
  · obtain ⟨ds, hgoes⟩ := goes_getUsers conn addr σ
    have hstep : (Pc.reply (Verb.utsil ++ ' ' :: getUsers σ.world.users)).next conn
      addr (σ.recorded ds) =
      some (Pc.sending (σ.recorded ds) conn (Verb.utsil ++ ' ' :: getUsers σ.world.users) .recv) :=
    rfl
    exact .of_goes hgoes (.congr (.send_bind hstep (.pure .again Pc.loopCtl)) rfl)
  · rcases treatment_of_take_toUser hto with ⟨hspace, htreat⟩ | ⟨name, msg, hcut, hname, htreat⟩
    · rw [dispatch_eq_treatment, htreat]
      exact .stop .valueError Pc.loopCtl
    · rw [htreat]
      exact carriesOut_toUser hto hcut hname σ
  · rw [treatment_of_take_morf hmorf]
    exact carriesOut_morf hmorf σ
  · exact carriesOut_bye σ
  · rw [treatment_of_other hother, dispatch_of_other conn addr hother]
    exact .of_step (a := .closes conn) (m := pure .again) rfl (.pure .again Pc.loopCtl) rfl

end Alone

/-! ## Runs in which requests are handled one at a time -/

/-- Where the thread stands of which the handler stands so. -/
def Pc.ofStop : Stop → Pc
  | .waiting => recv
  | .left => left
  | .raised e => raised e

/-- Behind the request it stops where the handler does. -/
theorem goesOn_loopCtl (out : Except PyExc LoopCtl) :
    Pc.goesOn Pc.loopCtl out = Pc.ofStop (stopAfter out) := by
  rcases out with e | ctl
  · rfl
  · cases ctl <;> rfl

namespace Listener

/-- A connection has one address. -/
theorem Coherent.addr_unique {s : Listener} (h : s.Coherent) {c : Conn} {addr addr' : Addr}
    (hmem : (c, addr) ∈ s.accepted) (hmem' : (c, addr') ∈ s.accepted) : addr = addr' := by
  have heq : (c, addr) = (c, addr') := List.inj_on_of_nodup_map h.conns hmem hmem' rfl
  exact congrArg Prod.snd heq

/-- A turn with a request. -/
theorem turn_of_request {s : Listener} {conn : Conn} {data : Bytes} {newStr : Str}
    (hopen : s.world.isOpen conn = true) (hdata : data ≠ [])
    (hreq : requestString data = some newStr)
    (addr : Addr) : s.turn conn addr data = s.serve conn addr newStr := by
  rcases s.turn_cases conn addr data with ⟨hno, -⟩ | ⟨newStr', -, hreq', hturn⟩
  · simp [NoRequest, hopen, hdata, hreq] at hno
  · rw [hreq] at hreq'
    rw [hturn, Option.some.inj hreq']

/-- What the turn of a handler is, its thread decides on after `recv`: it ends, or there is a
request. -/
theorem turn_received (s : Listener) (conn : Conn) (addr : Addr) (data : Bytes) :
    (∃ stop, stop ≠ .waiting ∧ s.turn conn addr data = s.finish conn stop ∧
        Pc.received (s.world.isOpen conn) data = .ofStop stop) ∨
      ∃ newStr, s.world.isOpen conn = true ∧ data ≠ [] ∧ requestString data = some newStr ∧
        s.turn conn addr data = s.serve conn addr newStr ∧
        Pc.received (s.world.isOpen conn) data = .start (treatment newStr) := by
  by_cases hopen : s.world.isOpen conn = false
  · refine .inl ⟨.raised .osError, by simp, ?_, ?_⟩
    · simp [turn, handleUser, hopen, finish]
    · rw [hopen, Pc.received, if_pos rfl]
      rfl
  by_cases hdata : data = []
  · refine .inl ⟨.left, by simp, ?_, ?_⟩
    · simp [turn, handleUser, hopen, hdata, finish]
    · rw [Pc.received, if_neg hopen, if_pos hdata]
      rfl
  rw [Pc.received, if_neg hopen, if_neg hdata]
  cases hreq : requestString data with
  | none =>
      refine .inl ⟨.raised .unicodeDecodeError, by simp, ?_, rfl⟩
      simp [turn, handleUser, hopen, hdata, handleData, hreq, finish]
  | some newStr =>
      have hopen' : s.world.isOpen conn = true := by simpa using hopen
      exact .inr ⟨newStr, hopen', hdata, rfl, turn_of_request hopen' hdata hreq addr, rfl⟩

end Listener

namespace Threads

section Follows

variable {cond' : Threads → ThreadEvent → Prop}
  (hcond' : ∀ t e, (∀ conn addr, e ≠ .accepts conn addr) → cond' t e)
include hcond'

/-- The steps that one thread takes in a row. -/
theorem reaches_of_goes {t : Threads} {conn : Conn} {addr : Addr} {y : Pc × Shared}
    (hmem : (conn, addr) ∈ t.shared.accepted) (h : Goes conn addr (t.pc conn, t.shared) y) :
    Reaches (· = t) cond' Step ⟨y.2, Function.update t.pc conn y.1⟩ := by
  have hreach : Reaches (· = t) cond' Step ⟨y.2, Function.update t.pc conn y.1⟩ ∧
      (conn, addr) ∈ y.2.accepted := by
    induction h with
    | refl =>
        rw [Function.update_eq_self]
        exact ⟨.start rfl, hmem⟩
    | @tail x y _ hstep ih =>
        obtain ⟨hx, hmem'⟩ := ih
        obtain ⟨a, hpc, hafter⟩ := hstep
        rw [hafter, Shared.accepted_after]
        refine ⟨?_, hmem'⟩
        have hpc' : ((⟨x.2, Function.update t.pc conn x.1⟩ : Threads).pc conn).next conn addr x.2 =
            some (a, y.1) := by
          rw [← hpc]
          exact congrArg (Pc.next conn addr x.2) (Function.update_self ..)
        have hnext := hx.step (hcond' _ (.advances conn) fun _ _ => nofun) (.of_next hmem' hpc')
        rw [go, Function.update_idem] at hnext
        exact hnext
  exact hreach.1

/-- The threads are where the handlers are. -/
structure Follows (s : Listener) (t : Threads) : Prop where
  world : t.shared.world = s.world
  accepted : t.shared.accepted = s.accepted
  pc : ∀ c, t.pc c = .ofStop (s.stop c)

/-- The handlers are where the threads are after `recv`, and after what a thread does then. -/
theorem Follows.of_goes {s s' : Listener} {t : Threads} (h : Follows s t)
    {conn : Conn} {addr : Addr}
    (hmem : (conn, addr) ∈ s.accepted) (hstop : s.stop conn = .waiting) (data : Bytes) {stop : Stop}
    {σ : Shared} (hgoes : Goes conn addr
      (.received (t.shared.isOpen conn) data, t.shared.recorded [⟨conn, .receives data⟩])
      (.ofStop stop, σ)) (hworld : σ.world = s'.world) (haccepted : σ.accepted = s'.accepted)
    (hs : s'.stop = Function.update s.stop conn stop) :
    ∃ t', Reaches (· = t) cond' Step t' ∧ Follows s' t' := by
  have hmem' : (conn, addr) ∈ t.shared.accepted := by
    rw [h.accepted]
    exact hmem
  have hrecv : t.pc conn = .recv := by rw [h.pc, hstop, Pc.ofStop]
  have hnext : Reaches (· = t)
      cond' Step (t.go conn (.receives data) (.received (t.shared.isOpen conn) data)) :=
    .step (.start rfl) (hcond' _ (.receives conn data) fun _ _ => nofun) (.receives hmem' hrecv)
  have hpc : (t.go conn (.receives data) (.received (t.shared.isOpen conn) data)).pc conn =
      .received (t.shared.isOpen conn) data := Function.update_self ..
  rw [← hpc] at hgoes
  have hmem'' : (conn, addr) ∈
      (t.go conn (.receives data) (.received (t.shared.isOpen conn) data)).shared.accepted := hmem'
  refine ⟨_, hnext.trans (reaches_of_goes hcond' hmem'' hgoes), hworld, haccepted, fun c => ?_⟩
  · show Function.update (Function.update t.pc conn _) conn _ c = _
    rw [Function.update_idem, hs]
    by_cases hc : c = conn
    · rw [hc, Function.update_self, Function.update_self]
    · rw [Function.update_of_ne hc, Function.update_of_ne hc]
      exact h.pc c

/-- A turn of a handler is a row of steps of its thread. -/
theorem Follows.turn {s : Listener} {t : Threads} (h : Follows s t) {conn : Conn} {addr : Addr}
    (hmem : (conn, addr) ∈ s.accepted) (hstop : s.stop conn = .waiting) (data : Bytes) :
    ∃ t', Reaches (· = t) cond' Step t' ∧ Follows (s.turn conn addr data) t' := by
  have hisOpen : t.shared.isOpen conn = s.world.isOpen conn := by
    rw [← h.world]
    rfl
  rcases s.turn_received conn addr data with ⟨stop, -, hturn, hpc⟩ | ⟨newStr, -, -, -, hturn, hpc⟩
  · rw [hturn]
    refine h.of_goes hcond' hmem hstop data (σ := t.shared.recorded [⟨conn, .receives data⟩])
      ?_ h.world
      h.accepted rfl
    rw [hisOpen, hpc]
    exact .refl _
  · have hcarries : CarriesOut conn addr (.start (treatment newStr))
      (t.shared.recorded [⟨conn, .receives data⟩]) (dispatch conn addr newStr) Pc.loopCtl :=
      carriesOut_dispatch newStr _
    obtain ⟨σ, hgoes, hworld, haccepted⟩ := hcarries
    rw [Shared.world_recorded, h.world, goesOn_loopCtl] at hgoes
    rw [Shared.world_recorded, h.world] at hworld
    rw [hturn]
    refine h.of_goes hcond' hmem hstop data ?_ hworld (haccepted.trans h.accepted) rfl
    rw [hisOpen, hpc]
    exact hgoes

/-- The threads do what the server does that handles one request at a time. -/
def simulation (cond : Listener → ListenerEvent → Prop)
    (haccept : ∀ s t conn addr, Follows s t → cond s (.accepts conn addr) →
      cond' t (.accepts conn addr)) :
    Simulation Listener.Initial cond Listener.Step Threads.Initial cond' Threads.Step where
  rel := Follows
  start s hs := by
    obtain ⟨⟨husers, hsent⟩, haccepted, hstop, -⟩ := hs
    refine ⟨⟨⟨[], 0, s.world.isOpen, [], [], []⟩, fun _ => .recv⟩,
      ⟨rfl, rfl, rfl, rfl, fun _ => rfl⟩, ?_, haccepted.symm, fun c => ?_⟩
    · show World.mk [] s.world.isOpen [] = s.world
      rw [← husers, ← hsent]
    · rw [hstop, Pc.ofStop]
  next s e s' t _ _ h hcond hst := by
    have hisOpen : t.shared.isOpen = s.world.isOpen := congrArg World.isOpen h.world
    cases hst with
    | @accepts conn addr hnew haddr =>
        rw [← h.accepted] at hnew haddr
        rw [← hisOpen] at haddr
        refine ⟨t.accept conn addr, .step (.start rfl) (haccept s t conn addr h hcond)
          (.accepts hnew haddr), ?_, ?_, h.pc⟩
        · show World.mk t.shared.world.users (Function.update t.shared.isOpen conn true) _ = _
          rw [h.world, hisOpen]
          exact congrArg (World.mk _ _) (congrArg World.sent h.world)
        · exact congrArg (· ++ [(conn, addr)]) h.accepted
    | @receives conn addr data hmem hstop => exact h.turn hcond' hmem hstop data
    | @breaks conn =>
        refine ⟨t.sever conn, .step (.start rfl) (hcond' _ (.breaks conn) fun _ _ => nofun) .breaks,
          ?_, h.accepted, h.pc⟩
        show World.mk t.shared.world.users (Function.update t.shared.isOpen conn false) _ = _
        rw [h.world, hisOpen]
        exact congrArg (World.mk _ _) (congrArg World.sent h.world)

end Follows

/-- **The server that handles one request at a time is one of the ways its threads can run**, and
from distinct addresses where that is so. -/
theorem of_listener {s : Listener} (h : Reachable Listener.Initial Listener.Step s) :
    ∃ t, Reachable Threads.Initial Threads.Step t ∧ t.shared.world = s.world ∧
      t.shared.accepted = s.accepted ∧ ∀ c, t.pc c = .ofStop (s.stop c) := by
  obtain ⟨t, ht, hfollows⟩ :=
    (simulation (fun _ _ _ => trivial) _ fun _ _ _ _ _ _ => trivial).reaches h
  exact ⟨t, ht, hfollows.world, hfollows.accepted, hfollows.pc⟩

/-- The threads can log two clients in. -/
theorem of_listener_two_clients : ∃ t, Reachable Threads.Initial Threads.Step t ∧
    t.shared.world = Listener.twoClients.world ∧ t.shared.accepted = [(0, 0), (1, 1)] ∧
      ∀ c, t.pc c = .ofStop (Listener.twoClients.stop c) :=
  of_listener (Listener.reaches_twoClients trivial trivial trivial trivial)

/-- So it is where addresses are distinct. -/
theorem of_listener_distinct {s : Listener}
    (h : Reaches Listener.Initial Listener.DistinctAddress Listener.Step s) :
    ∃ t, Reaches Threads.Initial DistinctAddress Threads.Step t ∧ t.shared.world = s.world ∧
      t.shared.accepted = s.accepted ∧ ∀ c, t.pc c = .ofStop (s.stop c) := by
  have hother : ∀ (t : Threads) e, (∀ conn addr, e ≠ .accepts conn addr) → t.DistinctAddress e := by
    intro t e he
    cases e with
    | accepts conn addr => exact absurd rfl (he conn addr)
    | _ => trivial
  have haccept : ∀ (s : Listener) (t : Threads) conn addr, Follows s t →
      s.DistinctAddress (.accepts conn addr) → t.DistinctAddress (.accepts conn addr) := by
    intro s t conn addr hfollows hcond p hp
    rw [hfollows.accepted] at hp
    exact hcond p hp
  obtain ⟨t, ht, hfollows⟩ := (simulation hother _ haccept).reaches h
  exact ⟨t, ht, hfollows.world, hfollows.accepted, hfollows.pc⟩

/-- One of two clients has sent a message to the other one. -/
def message : Listener := Listener.twoClients.serve 0 0 (Request.toUser ['b'] ['h']).render

/-- Two clients can log in from distinct addresses. -/
theorem reaches_two_clients :
    Reaches Listener.Initial Listener.DistinctAddress Listener.Step Listener.twoClients :=
  Listener.reaches_twoClients (by simp [Listener.DistinctAddress, Listener.idle]) trivial
    (by simp only [Listener.DistinctAddress]; decide) trivial

/-- The threads can relay a message. -/
theorem exists_message : ∃ t, Reaches Threads.Initial DistinctAddress Threads.Step t ∧
    t.shared.world = message.world := by
  obtain ⟨t, ht, hworld, -⟩ := of_listener_distinct (Listener.serve_request reaches_two_clients 0 0
    (.toUser ['b'] ['h']) (show '\r' ∉ ['b'] ∧ '\r' ∉ ['h'] by decide) trivial (by decide) rfl rfl)
  exact ⟨t, ht, hworld⟩

end Threads

end ME2U.Server
