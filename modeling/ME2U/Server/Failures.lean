import Mathlib.Data.List.Perm.Basic
import ME2U.Server.Registry
import ME2U.Server.Scans

/-!
# When handling a request raises

While every connection can be sent to, a request raises for one of five reasons. Four of them are
found before anything is done: a `TO` without a space, and a `TO`, a `MORF` or a `BYE` of somebody
who is not registered. The fifth is found on the way: a `BYE` closes the connection of the user who
leaves, and the broadcast that follows cannot send to another entry of that connection.

* `raises_iff_not_answerable`: apart from an `IAM`, a request raises where it is not answerable.
* `run_dispatch_of_failsAtOnce`: a request that fails at once changes nothing.
* `dispatch_raises_iff`: the five reasons are all there are.
-/

namespace ME2U.Server

variable {conn : Conn} {addr : Addr} {w : World}

/-! ## Who is registered -/

/-- A name is not found where it is not registered. -/
theorem find?_name_eq_none_iff {users : List User} {name : Str} :
    users.find? (·.name == name) = none ↔ name ∉ users.map User.name := by
  simp

/-- An address has no name where it is not registered. -/
theorem getNameFromAddr_eq_none_iff {users : List User} :
    getNameFromAddr users addr = none ↔ addr ∉ users.map User.addr := by
  rw [getNameFromAddr_eq_find?, Option.map_eq_none_iff]
  simp

/-- Another entry has the connection of an entry where that connection is registered twice. -/
theorem two_le_count_conn_iff {users : List User} {u : User} (hu : u ∈ users) :
    2 ≤ (users.map User.conn).count u.conn ↔ ∃ v ∈ users.erase u, v.conn = u.conn := by
  have hperm : (users.map User.conn).count u.conn =
      ((users.erase u).map User.conn).count u.conn + 1 := by
    rw [((List.perm_cons_erase hu).map User.conn).count_eq, List.map_cons, List.count_cons_self]
  have hmem : 0 < ((users.erase u).map User.conn).count u.conn ↔
      ∃ v ∈ users.erase u, v.conn = u.conn := by
    rw [List.count_pos_iff, List.mem_map]
  rw [hperm, ← hmem]
  omega

/-- Telling the users of a registered name what nobody said raises at once. -/
theorem run_sendOtToUsr_none {users : List User} {name : Str}
    (h : name ∈ users.map User.name) (w : World) :
    (sendOtToUsr users name none).run w = (.error .typeError, w) := by
  induction users with
  | nil => cases h
  | cons i users ih =>
      rw [sendOtToUsr]
      by_cases hi : i.name = name
      · rw [if_pos hi, nameText, Eff.run_stop_bind]
      · rw [if_neg hi]
        rw [List.map_cons, List.mem_cons] at h
        exact ih (h.resolve_left (Ne.symm hi))

/-! ## Raising -/

/-- The handler raises on a request string. -/
def Raises (w : World) (conn : Conn) (addr : Addr) (newStr : Str) : Prop :=
  ∃ e, ((dispatch conn addr newStr).run w).1 = .error e

/-- Only an `IAM` makes the handler leave its loop. -/
theorem take_iam_of_leave {newStr : Str} {w' : World}
    (h : (dispatch conn addr newStr).run w = (.ok .leave, w')) : newStr.take 3 = Verb.iam := by
  have hagain : ∀ {α : Type} (m : Py α) (w₁ : World),
      (m >>= fun _ => (pure .again : Py LoopCtl)).run w₁ ≠ (.ok .leave, w') := by
    intro α m w₁ hm
    obtain ⟨_, _, -, hpure⟩ := Eff.run_bind_eq_ok_iff.mp hm
    cases hpure
  rcases branch_cases newStr with rfl | hiam | rfl | hto | hmorf | rfl | hother
  · exact absurd h (hagain _ _)
  · exact hiam
  · exact absurd h (hagain _ _)
  · rw [dispatch_of_take_toUser conn addr hto] at h
    obtain ⟨⟨name, msg⟩, w₁, -, h⟩ := Eff.run_bind_eq_ok_iff.mp h
    rw [Eff.run_get_bind] at h
    obtain ⟨found, w₂, -, h⟩ := Eff.run_bind_eq_ok_iff.mp h
    cases found with
    | true => cases h
    | false => exact absurd h (hagain _ _)
  · rw [dispatch_of_take_morf conn addr hmorf] at h
    exact absurd h (hagain _ _)
  · exact absurd h (hagain _ _)
  · rw [dispatch_of_other conn addr hother] at h
    exact absurd h (hagain _ _)

/-- **When the handler raises**: on an open connection, on a request string that is not answerable,
other than an `IAM`. -/
theorem raises_iff_not_answerable (hconn : w.isOpen conn = true) (newStr : Str) :
    Raises w conn addr newStr ↔ newStr.take 3 ≠ Verb.iam ∧ ¬Answerable addr w newStr := by
  have hagain := run_dispatch_again_iff_answerable conn addr hconn newStr
  constructor
  · rintro ⟨e, he⟩
    constructor
    · intro hiam
      rw [run_dispatch_iam conn addr hiam, if_pos hconn] at he
      split_ifs at he
    · intro hans
      obtain ⟨w', hw'⟩ := hagain.mpr hans
      rw [hw'] at he
      cases he
  · rintro ⟨hiam, hans⟩
    rcases hrun : (dispatch conn addr newStr).run w with ⟨e | ctl, w'⟩
    · exact ⟨e, by rw [hrun]⟩
    cases ctl with
    | again => exact absurd (hagain.mp ⟨w', hrun⟩) hans
    | leave => exact absurd (take_iam_of_leave hrun) hiam

/-! ## The reasons -/

/-- The requests that raise before anything is done. -/
inductive FailsAtOnce (users : List User) (addr : Addr) (r : Str) : Prop
  /-- A `TO` that cannot be split into a name and a message. -/
  | unsplit : r.take 2 = Verb.toUser → ' ' ∉ r.drop 3 → FailsAtOnce users addr r
  /-- A `TO` to a registered name from an address that is not registered. -/
  | toFromNobody {name msg : Str} : r.take 2 = Verb.toUser →
      r.drop 3 = name ++ ' ' :: msg → ' ' ∉ name →
      name ∈ users.map User.name → addr ∉ users.map User.addr → FailsAtOnce users addr r
  /-- A `MORF` to a registered name from an address that is not registered. -/
  | morfFromNobody : r.take 4 = Verb.morf → r.drop 5 ∈ users.map User.name →
      addr ∉ users.map User.addr → FailsAtOnce users addr r
  /-- A `BYE` from an address that is not registered. -/
  | byeFromNobody : r = Verb.bye → addr ∉ users.map User.addr → FailsAtOnce users addr r

/-- A `BYE` of a user whose connection another entry has as well. -/
def FailsMidway (users : List User) (addr : Addr) (r : Str) : Prop :=
  r = Verb.bye ∧ ∃ u, users.find? (·.addr == addr) = some u ∧ 2 ≤ (users.map User.conn).count u.conn

/-- **A request that fails at once** raises in the world it found. -/
theorem run_dispatch_of_failsAtOnce {r : Str} (h : FailsAtOnce w.users addr r) :
    ∃ e, (dispatch conn addr r).run w = (.error e, w) := by
  cases h with
  | unsplit hto hspace =>
      rw [dispatch_of_take_toUser conn addr hto]
      rcases splitOnce_cases (r.drop 3) with ⟨hsplit, -⟩ | ⟨name, msg, hcut, -, -⟩
      · exact ⟨.valueError, by rw [hsplit, Eff.run_stop_bind]⟩
      · rw [hcut] at hspace
        simp at hspace
  | @toFromNobody name msg hto hcut hname hmem haddr =>
      rw [dispatch_of_take_toUser conn addr hto, hcut, splitOnce_of_notMem hname, Eff.run_pure_bind,
        Eff.run_get_bind]
      obtain ⟨i, hfind⟩ :=
        Option.ne_none_iff_exists'.mp (mt find?_name_eq_none_iff.mp (not_not_intro hmem))
      have hrun := run_findUserToSendMsgTo_of_find hfind msg (getNameFromAddr w.users addr) w
      rw [getNameFromAddr_eq_none_iff.mpr haddr] at hrun
      exact ⟨.typeError, by rw [getNameFromAddr_eq_none_iff.mpr haddr, Eff.run_bind_error hrun]⟩
  | morfFromNobody hmorf hmem haddr =>
      rw [dispatch_of_take_morf conn addr hmorf, Eff.run_get_bind,
        getNameFromAddr_eq_none_iff.mpr haddr]
      exact ⟨.typeError, Eff.run_bind_error (run_sendOtToUsr_none hmem w) _⟩
  | byeFromNobody hbye haddr =>
      have hfind : w.users.find? (fun i => i.addr == addr) = none := by
        rw [← Option.map_eq_none_iff (f := User.name), ← getNameFromAddr_eq_find?]
        exact getNameFromAddr_eq_none_iff.mpr haddr
      have hdispatch : dispatch conn addr Verb.bye = _ := dispatch_bye conn addr
      have hrun := run_removeUsrByAddr addr w
      rw [hfind] at hrun
      rw [hbye, hdispatch]
      exact ⟨.attributeError, Eff.run_bind_error hrun _⟩

/-! ## The reasons are all there are -/

section Open

variable (hopen : ∀ u ∈ w.users, w.isOpen u.conn = true)
include hopen

/-- A `TO` can be handled unless somebody is to be told by nobody. -/
theorem serviceable_toUser_iff (name msg : Str) :
    Serviceable addr w (.toUser name msg) ↔
      (receiver name ∈ w.users.map User.name → addr ∈ w.users.map User.addr) := by
  unfold Serviceable
  constructor
  · intro h hmem
    obtain ⟨i, hi⟩ :=
      Option.ne_none_iff_exists'.mp (mt find?_name_eq_none_iff.mp (not_not_intro hmem))
    by_contra haddr
    have hsome := (h i hi).1
    rw [getNameFromAddr_eq_none_iff.mpr haddr] at hsome
    cases hsome
  · intro h i hi
    have hmem : receiver name ∈ w.users.map User.name := by
      by_contra hmem
      rw [find?_name_eq_none_iff.mpr hmem] at hi
      cases hi
    refine ⟨?_, hopen i (List.mem_of_find?_eq_some hi)⟩
    rw [Option.isSome_iff_ne_none]
    exact fun hnone => getNameFromAddr_eq_none_iff.mp hnone (h hmem)

/-- A `MORF` can be handled unless somebody is to be told by nobody. -/
theorem serviceable_morf_iff (name : Str) :
    Serviceable addr w (.morf name) ↔
      (name ∈ w.users.map User.name → addr ∈ w.users.map User.addr) := by
  unfold Serviceable
  constructor
  · intro h hmem
    obtain ⟨i, hi, hname⟩ := List.mem_map.mp hmem
    by_contra haddr
    have hsome := (h i hi hname).1
    rw [getNameFromAddr_eq_none_iff.mpr haddr] at hsome
    cases hsome
  · intro h i hi hname
    refine ⟨?_, hopen i hi⟩
    rw [Option.isSome_iff_ne_none]
    exact fun hnone => getNameFromAddr_eq_none_iff.mp hnone (h (hname ▸ List.mem_map_of_mem hi))

/-- A `BYE` cannot be handled for somebody who is not registered, or whose connection another entry
has as well. -/
theorem not_serviceable_bye_iff :
    ¬Serviceable addr w .bye ↔ addr ∉ w.users.map User.addr ∨
      FailsMidway w.users addr Verb.bye := by
  unfold Serviceable FailsMidway
  cases hfind : w.users.find? (fun i => i.addr == addr) with
  | none =>
      have haddr : addr ∉ w.users.map User.addr := by simpa using hfind
      simp [haddr]
  | some u =>
      have hu : u ∈ w.users := List.mem_of_find?_eq_some hfind
      have hfound : u.addr = addr := by simpa using List.find?_some hfind
      have haddr : addr ∈ w.users.map User.addr := hfound ▸ List.mem_map_of_mem hu
      have hrest : ∀ j ∈ w.users.erase u, w.isOpen j.conn = true := fun j hj =>
        hopen j (List.mem_of_mem_erase hj)
      simp only [Option.some.injEq, exists_eq_left', hopen u hu, haddr, not_true_eq_false, false_or,
        true_and, two_le_count_conn_iff hu]
      push Not
      refine ⟨fun ⟨j, hj, h⟩ => ⟨j, hj, ?_⟩, fun ⟨j, hj, h⟩ => ⟨j, hj, fun hne => absurd h hne⟩⟩
      by_contra hne
      exact h hne (hrest j hj)

/-- **The reasons**: a request string other than an `IAM` that is not answerable fails at once or
midway. -/
theorem fails_of_not_answerable {r : Str} (hiam : r.take 3 ≠ Verb.iam) (h : ¬Answerable addr w r) :
    FailsAtOnce w.users addr r ∨ FailsMidway w.users addr r := by
  unfold Answerable at h
  rw [if_neg hiam] at h
  split_ifs at h with hto hmorf hbye
  · rcases splitOnce_cases (r.drop 3) with ⟨-, hspace⟩ | ⟨name, msg, hcut, hname, -⟩
    · exact .inl (.unsplit hto hspace)
    · have hspace : ' ' ∈ r.drop 3 := by rw [hcut]; simp
      rw [and_iff_right hspace, serviceable_toUser_iff hopen, hcut, receiver_append hname,
        Classical.not_imp] at h
      exact .inl (.toFromNobody hto hcut hname h.1 h.2)
  · rw [serviceable_morf_iff hopen, Classical.not_imp] at h
    exact .inl (.morfFromNobody hmorf h.1 h.2)
  · rcases (not_serviceable_bye_iff hopen).mp h with haddr | hmid
    · exact .inl (.byeFromNobody hbye haddr)
    · exact .inr (hbye ▸ hmid)
  · exact absurd trivial h

end Open

/-- **Exactly when handling a request raises**, while every connection of the registry and the
sender's can be sent to, for every chunk of received text: for one of the five reasons. For the
first four, nothing was sent and the registry is as it was. -/
theorem dispatch_raises_iff (hopen : ∀ u ∈ w.users, w.isOpen u.conn = true)
    (hconn : w.isOpen conn = true) (addr : Addr) (chunk : Str) :
    (Raises w conn addr (ending chunk .remove) ↔
      FailsAtOnce w.users addr (ending chunk .remove) ∨
        FailsMidway w.users addr (ending chunk .remove)) ∧
    (FailsAtOnce w.users addr (ending chunk .remove) →
      ((dispatch conn addr (ending chunk .remove)).run w).2 = w) := by
  refine ⟨⟨fun hraises => ?_, fun hfails => ?_⟩, fun h => ?_⟩
  · obtain ⟨hiam, hans⟩ := (raises_iff_not_answerable hconn _).mp hraises
    exact fails_of_not_answerable hopen hiam hans
  · rcases hfails with h | hmid
    · obtain ⟨e, he⟩ : ∃ e, (dispatch conn addr (ending chunk .remove)).run w = (.error e, w) :=
        run_dispatch_of_failsAtOnce h
      exact ⟨e, by rw [he]⟩
    · rw [raises_iff_not_answerable hconn, hmid.1]
      refine ⟨by decide, fun hans => ?_⟩
      exact (not_serviceable_bye_iff hopen).mpr (.inr (hmid.1 ▸ hmid)) hans
  · obtain ⟨e, he⟩ : ∃ e, (dispatch conn addr (ending chunk .remove)).run w = (.error e, w) :=
      run_dispatch_of_failsAtOnce h
    rw [he]

/-- Two users whose connections can be sent to. -/
private def bothOpen : World := ⟨[⟨['a'], 0, 0⟩, ⟨['b'], 1, 1⟩], fun _ => true, []⟩

/-- A third client that says good-bye without having logged in raises. -/
theorem dispatch_raises_bye_of_stranger :
    Raises bothOpen 2 2 (ending (Verb.bye ++ terminatingSequence) .remove) :=
  (dispatch_raises_iff (by decide) rfl 2 (Verb.bye ++ terminatingSequence)).1.mpr
    (.inl (.byeFromNobody (by decide) (by decide)))

end ME2U.Server
