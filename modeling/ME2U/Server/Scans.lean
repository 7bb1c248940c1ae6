import ME2U.Found.ListScan
import ME2U.Server.Requests

/-!
# The loops over the registry while other threads change it

Every `for i in users` of the server is a scan of the list object that `IAM` appends to and `BYE`
removes from in other threads, without a lock. An `Entry` is a `User` object with its identity:
`list.remove` goes by identity, and so does staying registered.

* `scan_alone_checkUserExists`, `scan_alone_getNameFromAddr`, `scan_alone_broadcastUoff`: without
  interference the scans return what the functions of the handler return.
* `scans_miss_nobody_iff`: an entry that stays registered is visited exactly once by a loop that
  runs to the end iff it is never passed over; and if it is not, a loop that looks for it finds a
  match.
-/

namespace ME2U.Server

/-- An object of the registry. -/
structure Entry where
  /-- The identity of the object. -/
  id : ℕ
  /-- Its attributes. -/
  user : User
  deriving DecidableEq

/-- The loops of the server over the registry. -/
inductive Loop
  /-- `get_name_from_addr` -/
  | getNameFromAddr (addr : Addr)
  /-- `find_user_to_send_msg_to` -/
  | findUserToSendMsgTo (name : Str)
  /-- The first loop of `remove_usr_by_addr` -/
  | findUsrByAddr (addr : Addr)
  /-- The second loop of `remove_usr_by_addr` -/
  | broadcastUoff
  /-- `send_ot_to_usr` -/
  | sendOtToUsr
  /-- `get_users` -/
  | getUsers
  /-- The generator in `check_user_exists` -/
  | checkUserExists (name : Str)

/-- The entries at which a loop returns or breaks.
Source: `server.py` (lines 86–139) -/
def Loop.halts : Loop → Entry → Bool
  | .getNameFromAddr addr, e | .findUsrByAddr addr, e => e.user.addr == addr
  | .findUserToSendMsgTo name, e | .checkUserExists name, e => e.user.name == name
  | _, _ => false

/-- What a loop that looks for a match returns: whether it found one. -/
def found (s : Scan Entry) : Option Bool :=
  match s.status with
  | .running => none
  | .exhausted => some false
  | .stopped => some true

/-- What `get_name_from_addr` returns: the name of the entry it stopped at. -/
def foundName (s : Scan Entry) : Option (Option Str) :=
  match s.status with
  | .running => none
  | .exhausted => some none
  | .stopped => some (s.visited.getLast?.map fun e => e.user.name)

/-- The scan of a loop, with everything that happens meanwhile. -/
def Loop.scan (loop : Loop) (entries : List Entry) (es : List (ScanEvent Entry)) : Scan Entry :=
  (Scan.start entries).run loop.halts es

/-- The scan of a loop that nobody interferes with. -/
def Loop.scanAlone (loop : Loop) (entries : List Entry) : Scan Entry :=
  loop.scan entries (List.replicate (entries.length + 1) .next)

/-! ## Without interference -/

/-- Without interference a loop sees the entries in order, up to the one that it halts at. -/
theorem scanAlone_eq (loop : Loop) (entries : List Entry) :
    loop.scanAlone entries =
      ⟨entries, (Scan.seen loop.halts entries).length, Scan.seen loop.halts entries,
        if entries.any loop.halts then .stopped else .exhausted⟩ :=
  Scan.run_next loop.halts entries

/-- Alone, the scan computes the function of the program, -/
theorem scan_alone_checkUserExists (entries : List Entry) (name : Str) :
    found ((Loop.checkUserExists name).scanAlone entries) =
      some (checkUserExists (entries.map Entry.user) name) := by
  have hany : entries.any (Loop.checkUserExists name).halts =
      checkUserExists (entries.map Entry.user) name := by
    unfold checkUserExists
    rw [List.any_map]
    rfl
  rw [scanAlone_eq, found, hany]
  cases checkUserExists (entries.map Entry.user) name <;> rfl

/-- The first entry of the address, -/
theorem getNameFromAddr_eq_find? (users : List User) (addr : Addr) :
    getNameFromAddr users addr = (users.find? (·.addr == addr)).map User.name := by
  induction users with
  | nil => rfl
  | cons u users ih =>
      by_cases hu : u.addr = addr
      · unfold getNameFromAddr
        rw [if_pos hu, List.find?_cons_of_pos (by simpa using hu), Option.map_some]
      · unfold getNameFromAddr
        rw [if_neg hu, List.find?_cons_of_neg (by simpa using hu), ih]

/-- which the scan finds when it is alone. -/
theorem scan_alone_getNameFromAddr (entries : List Entry) (addr : Addr) :
    foundName ((Loop.getNameFromAddr addr).scanAlone entries) =
      some (getNameFromAddr (entries.map Entry.user) addr) := by
  have hfind : (entries.map Entry.user).find? (·.addr == addr) =
      (entries.find? (Loop.getNameFromAddr addr).halts).map Entry.user := by
    rw [List.find?_map]
    rfl
  rw [scanAlone_eq, getNameFromAddr_eq_find?, hfind, Option.map_map]
  cases hany : entries.any (Loop.getNameFromAddr addr).halts with
  | true => simp [foundName, Scan.getLast?_seen hany, Function.comp_def]
  | false =>
      have hnone : entries.find? (Loop.getNameFromAddr addr).halts = none := by
        rw [List.find?_eq_none]
        exact List.any_eq_false.mp hany
      simp [foundName, hnone]

/-- The frames of a broadcast to open connections. -/
theorem run_broadcastUoff_of_isOpen {users : List User} {name : Str} {w : World}
    (hopen : ∀ u ∈ users, w.isOpen u.conn = true) :
    ((broadcastUoff users name).run w).2.sent =
      w.sent ++ users.map fun u => ⟨u.conn, encode (ending (Verb.uoff ++ ' ' :: name)), true⟩ := by
  induction users generalizing w with
  | nil => simp [broadcastUoff]
  | cons u users ih =>
      have hu : w.isOpen u.conn = true := hopen u (by simp)
      have hrest : ∀ v ∈ users,
        (w.logged u.conn (encode (ending (Verb.uoff ++ ' ' :: name)))).isOpen
          v.conn = true := fun v hv => hopen v (by simp [hv])
      unfold broadcastUoff
      rw [run_send_bind_of_isOpen hu, ih hrest]
      simp [hu]

/-- The broadcast sends to the connections of the entries the scan visits. -/
theorem scan_alone_broadcastUoff {entries : List Entry} {name : Str} {w : World}
    (hopen : ∀ e ∈ entries, w.isOpen e.user.conn = true) :
    ((broadcastUoff (entries.map Entry.user) name).run w).2.sent =
      w.sent ++ (Loop.broadcastUoff.scanAlone entries).visited.map fun e =>
        ⟨e.user.conn, encode (ending (Verb.uoff ++ ' ' :: name)), true⟩ := by
  have hseen : Scan.seen Loop.broadcastUoff.halts entries = entries := by
    induction entries with
    | nil => rfl
    | cons e entries ih => rw [Scan.seen, ih fun d hd => hopen d (by simp [hd])]; rfl
  rw [run_broadcastUoff_of_isOpen (by simpa using hopen), scanAlone_eq, hseen, List.map_map]
  rfl

/-! ## With interference -/

/-- **Who is missed.** For every loop of the server and every interleaving, an entry that stays
registered is visited exactly once by the loop, if that runs to the end, iff it is never passed
over. If it is never passed over, a `TO` to its name finds somebody, and its address has a name. -/
theorem scans_miss_nobody_iff (entries : List Entry) (hnd : entries.Nodup) (loop : Loop) (x : Entry)
    (es : List (ScanEvent Entry)) (hstay : Scan.Stays loop.halts x (Scan.start entries) es) :
    ((loop.scan entries es).status = .exhausted →
      ((loop.scan entries es).visited.count x = 1 ↔
        Scan.NeverPassedOver loop.halts x (Scan.start entries) es)) ∧
    (Scan.NeverPassedOver loop.halts x (Scan.start entries) es →
      (loop = .findUserToSendMsgTo x.user.name → found (loop.scan entries es) ≠ some false) ∧
      (loop = .getNameFromAddr x.user.addr → foundName (loop.scan entries es) ≠ some none)) := by
  refine ⟨Scan.count_visited_run_iff hnd hstay, fun hnever => ⟨?_, ?_⟩⟩
  · rintro rfl hedne
    have hne := Scan.status_run_ne_exhausted hnd (by simp [Loop.halts]) hstay hnever
    unfold found at hedne
    split at hedne
    · cases hedne
    · next hend => exact hne hend
    · cases hedne
  · rintro rfl hnone
    have hne := Scan.status_run_ne_exhausted hnd (by simp [Loop.halts]) hstay hnever
    unfold foundName at hnone
    split at hnone
    · cases hnone
    · next hend => exact hne hend
    · next hend =>
        have hvisited :=
          Scan.visited_run_ne_nil (s := Scan.start entries) (by simp [Scan.start]) hend
        apply hvisited
        simpa [Loop.scan] using hnone

private def entryA : Entry := ⟨0, ⟨['a'], 0, 0⟩⟩
private def entryB : Entry := ⟨1, ⟨['b'], 1, 1⟩⟩

/-- A broadcast during which the user behind the index leaves visits the other one once. -/
theorem broadcast_visits_staying_user :
    (Loop.broadcastUoff.scan [entryA, entryB] [.next, .next, .remove entryA, .next]).visited.count
      entryB = 1 :=
  ((scans_miss_nobody_iff [entryA, entryB] (by decide) .broadcastUoff entryB
    [.next, .next, .remove entryA, .next]
    (by decide)).1 rfl).mpr (by decide)

/-- The user at index 1 is missed when the one at index 0 leaves just then: a `TO` to somebody who
never left finds nobody. -/
theorem not_scans_miss_nobody :
    ¬∀ (entries : List Entry) (loop : Loop) (x : Entry) (es : List (ScanEvent Entry)),
      entries.Nodup → Scan.Stays loop.halts x (Scan.start entries) es →
      (loop.scan entries es).status = .exhausted → (loop.scan entries es).visited.count x = 1 := by
  intro hall
  have hcount := hall [entryA, entryB] (.findUserToSendMsgTo ['b']) entryB
    [.next, .remove entryA, .next] (by decide) (by decide) (by decide)
  exact absurd hcount (by decide)

end ME2U.Server
