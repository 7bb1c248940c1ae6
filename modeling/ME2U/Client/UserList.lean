import Mathlib.Data.List.Find
import Mathlib.Logic.Function.Basic
import ME2U.Found.Linked
import ME2U.Client.Reply

/-!
# The user list in memory

`user_list_head` and `user_list_tail` point to entries that are linked in both directions, and each
entry points to a user. Here the functions work on addresses, as the source does; elsewhere the
client has a list of users.

* `Heap.Holds`: the memory holds a list of entries, in order.
* `Heap.Holds.findUser`, `Heap.Holds.findUserPid`: the two loops along the list.
* `Heap.Holds.linkUser`, `Heap.Holds.updateUser`, `Heap.Holds.updatePid`: what the writes do to the
  list.
* `Heap.Holds.processMsg`: a call of `process_msg` adds an entry for a new name, and nothing else.
-/

namespace ME2U.Client

/-! ## Memory -/

/-- Source: `client.h` `list_user` (lines 68–73) -/
structure ListUser where
  /-- The address of the user. -/
  currUser : Option ℕ
  pid : ℕ
  next : Option ℕ
  prev : Option ℕ

/-- The memory, as far as the user list goes. -/
structure Heap where
  /-- The users, by their addresses. -/
  structs : ℕ → Option UserStruct
  /-- The entries, by their addresses. -/
  nodes : ℕ → Option ListUser
  userListHead : Option ℕ
  userListTail : Option ℕ
  /-- What was written so far, oldest first. -/
  wrote : List (Fd × Bytes)

/-- A computation on the memory. -/
abbrev HeapM (α : Type) := Eff Heap Halt α

namespace Heap

/-- Write a user. -/
def setUser (a : ℕ) (u : UserStruct) (h : Heap) : Heap :=
  { h with structs := Function.update h.structs a (some u) }

/-- Write an entry. -/
def setNode (a : ℕ) (n : ListUser) (h : Heap) : Heap :=
  { h with nodes := Function.update h.nodes a (some n) }

/-- The address that a pointer holds. -/
def deref : Option ℕ → HeapM ℕ
  | some a => pure a
  | none => mem (.error .nullPointer)

/-- A read through a `user_struct` pointer, -/
def loadUser (a : ℕ) : HeapM UserStruct := do
  let h ← Eff.get
  match h.structs a with
  | some u => pure u
  | none => mem (.error .outOfBounds)

/-- and one through a `list_user` pointer. -/
def loadNode (a : ℕ) : HeapM ListUser := do
  let h ← Eff.get
  match h.nodes a with
  | some n => pure n
  | none => mem (.error .outOfBounds)

/-- Write a part of a user. -/
def updateUser (a : ℕ) (f : UserStruct → UserStruct) : HeapM Unit := do
  let u ← loadUser a
  Eff.modify (setUser a (f u))

/-- Write a part of an entry. -/
def updateNode (a : ℕ) (f : ListUser → ListUser) : HeapM Unit := do
  let n ← loadNode a
  Eff.modify (setNode a (f n))

section Access

variable {h : Heap} {a : ℕ}

@[simp] theorem nodes_setUser (u : UserStruct) : (h.setUser a u).nodes = h.nodes := rfl

@[simp] theorem structs_setNode (n : ListUser) : (h.setNode a n).structs = h.structs := rfl

@[simp] theorem userListHead_setUser (u : UserStruct) :
    (h.setUser a u).userListHead = h.userListHead := rfl

@[simp] theorem userListHead_setNode (n : ListUser) :
    (h.setNode a n).userListHead = h.userListHead := rfl

@[simp] theorem userListTail_setUser (u : UserStruct) :
    (h.setUser a u).userListTail = h.userListTail := rfl

@[simp] theorem userListTail_setNode (n : ListUser) :
    (h.setNode a n).userListTail = h.userListTail := rfl

@[simp] theorem structs_setUser_self (u : UserStruct) : (h.setUser a u).structs a = some u :=
  Function.update_self ..

@[simp] theorem nodes_setNode_self (n : ListUser) : (h.setNode a n).nodes a = some n :=
  Function.update_self ..

/-- A write to one struct leaves the others alone, -/
theorem structs_setUser_of_ne {b : ℕ} (hb : b ≠ a) (u : UserStruct) :
    (h.setUser a u).structs b = h.structs b :=
  Function.update_of_ne hb ..

/-- and one to a node the other nodes. -/
theorem nodes_setNode_of_ne {b : ℕ} (hb : b ≠ a) (n : ListUser) :
    (h.setNode a n).nodes b = h.nodes b :=
  Function.update_of_ne hb ..

/-- The read of a struct that is allocated -/
theorem run_loadUser {u : UserStruct} (hu : h.structs a = some u) :
    (loadUser a).run h = (.ok u, h) := by
  unfold loadUser
  rw [Eff.run_get_bind, hu]
  rfl

/-- and of a node that is. -/
theorem run_loadNode {n : ListUser} (hn : h.nodes a = some n) :
    (loadNode a).run h = (.ok n, h) := by
  unfold loadNode
  rw [Eff.run_get_bind, hn]
  rfl

/-- The write to a struct that is allocated -/
theorem run_updateUser {u : UserStruct} (hu : h.structs a = some u) (f : UserStruct → UserStruct) :
    (updateUser a f).run h = (.ok (), h.setUser a (f u)) := by
  unfold updateUser
  rw [Eff.run_bind_ok (run_loadUser hu)]
  rfl

/-- and to a node that is. -/
theorem run_updateNode {n : ListUser} (hn : h.nodes a = some n) (f : ListUser → ListUser) :
    (updateNode a f).run h = (.ok (), h.setNode a (f n)) := by
  unfold updateNode
  rw [Eff.run_bind_ok (run_loadNode hn)]
  rfl

end Access

/-! ## Loops -/

/-- The comparison in the loop over the users. -/
def hasName (h : Heap) (name : Bytes) (n : ListUser) : Option Bool :=
  match n.currUser with
  | none => some false
  | some u => (h.structs u).map (·.username == name)

/-- The address of the first user of that name; an error where the loop does not return.
Source: `client.c` `find_user` (lines 460–471) -/
def findUser (name : Bytes) (fuel : ℕ) : HeapM (Option ℕ) := do
  let h ← Eff.get
  match scan ListUser.next h.nodes (h.hasName name) fuel h.userListHead with
  | none => mem (.error .outOfBounds)
  | some none => pure none
  | some (some temp) => do
      let n ← loadNode temp
      pure n.currUser

/-- The address of the first entry with that id; an error where the loop does not return.
Source: `client.c` `find_user_pid` (lines 581–590) -/
def findUserPid (pid : ℕ) (fuel : ℕ) : HeapM (Option ℕ) := do
  let h ← Eff.get
  match scan ListUser.next h.nodes (fun n => some (n.pid == pid)) fuel h.userListHead with
  | none => mem (.error .outOfBounds)
  | some temp => pure temp

/-! ## A new user -/

/-- What the calls in `create_new_user` return: `calloc` twice, `pipe` and `fork`. -/
structure Started where
  /-- The address of the user. -/
  usr : ℕ
  /-- The address of the entry. -/
  node : ℕ
  rd : ℕ
  wrt : ℕ
  childpid : ℕ

/-- The user is allocated, and its entry linked in.
Source: `client.c` `create_new_user` (lines 474–487) -/
def linkUser (s : Started) (name : Bytes) : HeapM Unit := do
  Eff.modify (setUser s.usr ⟨name, 0, 0, 0, 0, false⟩)
  Eff.modify (setNode s.node ⟨some s.usr, 0, none, none⟩)
  let h ← Eff.get
  match h.userListHead with
  | none => Eff.modify fun h => { h with userListHead := some s.node, userListTail := some s.node }
  | some _ => do
      let tail ← deref h.userListTail
      updateNode tail fun n => { n with next := some s.node }
      updateNode s.node fun n => { n with prev := h.userListTail }
      Eff.modify fun h => { h with userListTail := some s.node }

/-- Source: `client.c` `create_new_user` (lines 473–517) -/
def createNewUser (s : Started) (name : Bytes) : HeapM ℕ := do
  linkUser s name
  updateUser s.usr fun u => { u with rd := s.rd }
  updateUser s.usr fun u => { u with wrt := s.wrt }
  updateUser s.usr fun u => { u with active := true }
  updateNode s.node fun n => { n with pid := s.childpid }
  pure s.usr

/-- Source: `client.c` `process_msg` (lines 448–458) -/
def processMsg (s : Started) (msg : Block) (fuel : ℕ) : HeapM Unit := do
  let nameLen ← mem (wordLength msg)
  let name ← mem (memcpy (zeros (nameLen + 1)) msg nameLen)
  let name ← mem (cstr name)
  let found ← findUser name fuel
  let tempUser ← match found with
    | some u => pure u
    | none => createNewUser s name
  let text ← mem (cstr (msg.drop (nameLen + 1)))
  let u ← loadUser tempUser
  Eff.modify fun h => { h with wrote := h.wrote ++ [(.pipe u.wrt, text)] }

/-- What is done with an id that `waitpid` returns.
Source: `client.c` `sigchild_handler` (lines 573–577) -/
def sigchild (pid : ℕ) (fuel : ℕ) : HeapM Unit := do
  let temp ← findUserPid pid fuel
  let temp ← deref temp
  let n ← loadNode temp
  match n.currUser with
  | none => Eff.stop (.error "PID found but user is null")
  | some u => updateUser u fun u => { u with active := false }

/-! ## The list -/

/-- An entry with its user. -/
structure Entry where
  node : ℕ
  usr : ℕ
  user : UserStruct
  pid : ℕ

/-- The entry of a new user. -/
def Started.entry (s : Started) (name : Bytes) : Entry :=
  ⟨s.node, s.usr, ⟨name, 0, 0, s.rd, s.wrt, true⟩, s.childpid⟩

/-- **The memory holds a list of entries.** -/
structure Holds (h : Heap) (es : List Entry) : Prop where
  linked : Linked ListUser.next ListUser.prev h.nodes none h.userListHead (es.map Entry.node)
  tail : h.userListTail = (es.map Entry.node).getLast?
  nodes : ∀ e ∈ es, ∃ n, h.nodes e.node = some n ∧ n.currUser = some e.usr ∧ n.pid = e.pid
  structs : ∀ e ∈ es, h.structs e.usr = some e.user
  usrs : (es.map Entry.usr).Nodup

namespace Holds

variable {h : Heap} {es : List Entry} (hh : h.Holds es)
include hh

/-- The entry at an address. -/
theorem eq_of_node {e : Entry} (he : e ∈ es) {n : ListUser} (hn : h.nodes e.node = some n) :
    n.currUser = some e.usr ∧ n.pid = e.pid := by
  obtain ⟨n', hn', husr, hpid⟩ := hh.nodes e he
  obtain rfl := Option.some.inj (hn.symm.trans hn')
  exact ⟨husr, hpid⟩

/-- A loop along the list, with a test that looks at the entries. -/
theorem scan_entries {test : ListUser → Option Bool} {t : Entry → Bool}
    (htest : ∀ e ∈ es, ∀ n, h.nodes e.node = some n → test n = some (t e)) {fuel : ℕ}
    (hfuel : es.length ≤ fuel) :
    scan ListUser.next h.nodes test fuel h.userListHead = some ((es.find? t).map Entry.node) := by
  let found : ℕ → Bool := fun a => (h.nodes a).bind test == some true
  have hfound : ∀ e ∈ es, found e.node = t e := by
    intro e he
    obtain ⟨n, hn, -, -⟩ := hh.nodes e he
    show ((h.nodes e.node).bind test == some true) = t e
    rw [hn, Option.bind_some, htest e he n hn]
    cases t e <;> rfl
  have hnodes : ∀ a ∈ es.map Entry.node, ∀ n, h.nodes a = some n → test n = some (found a) := by
    intro a ha n hn
    obtain ⟨e, he, rfl⟩ := List.mem_map.mp ha
    rw [hfound e he]
    exact htest e he n hn
  have hcongr : es.find? (found ∘ Entry.node) = es.find? t := List.find?_congr hfound
  rw [scan_eq hh.linked hnodes (by simpa using hfuel), List.find?_map, hcongr]

/-- **`find_user`** returns the first user of the name. -/
theorem findUser (name : Bytes) {fuel : ℕ} (hfuel : es.length ≤ fuel) :
    (Heap.findUser name fuel).run h =
      (.ok ((es.find? (·.user.username == name)).map Entry.usr), h) := by
  have htest : ∀ e ∈ es, ∀ n, h.nodes e.node = some n →
      h.hasName name n = some (e.user.username == name) := by
    intro e he n hn
    unfold hasName
    rw [(hh.eq_of_node he hn).1]
    dsimp only
    rw [hh.structs e he]
    rfl
  unfold Heap.findUser
  rw [Eff.run_get_bind, hh.scan_entries htest hfuel]
  cases hfind : es.find? (·.user.username == name) with
  | none => rfl
  | some e =>
      obtain ⟨n, hn, husr, -⟩ := hh.nodes e (List.mem_of_find?_eq_some hfind)
      dsimp only [Option.map]
      rw [Eff.run_bind_ok (run_loadNode hn), Eff.run_pure, husr]

/-- **`find_user_pid`** returns the first entry with the id. -/
theorem findUserPid (pid : ℕ) {fuel : ℕ} (hfuel : es.length ≤ fuel) :
    (Heap.findUserPid pid fuel).run h = (.ok ((es.find? (·.pid == pid)).map Entry.node), h) := by
  have htest : ∀ e ∈ es, ∀ n, h.nodes e.node = some n →
      some (n.pid == pid) = some (e.pid == pid) := by
    intro e he n hn
    rw [(hh.eq_of_node he hn).2]
  unfold Heap.findUserPid
  rw [Eff.run_get_bind, hh.scan_entries htest hfuel]
  rfl

end Holds

/-! ## Writes -/

/-- The list when a user has been written. -/
def Entry.withUser (usr : ℕ) (u : UserStruct) (e : Entry) : Entry :=
  if e.usr = usr then { e with user := u } else e

/-- The list when the id of an entry has been written. -/
def Entry.withPid (node : ℕ) (pid : ℕ) (e : Entry) : Entry :=
  if e.node = node then { e with pid := pid } else e

@[simp] theorem Entry.node_withUser (usr : ℕ) (u : UserStruct) (e : Entry) :
    (e.withUser usr u).node = e.node := by
  unfold withUser
  split <;> rfl

@[simp] theorem Entry.usr_withUser (usr : ℕ) (u : UserStruct) (e : Entry) :
    (e.withUser usr u).usr = e.usr := by
  unfold withUser
  split <;> rfl

@[simp] theorem Entry.pid_withUser (usr : ℕ) (u : UserStruct) (e : Entry) :
    (e.withUser usr u).pid = e.pid := by
  unfold withUser
  split <;> rfl

@[simp] theorem Entry.node_withPid (node pid : ℕ) (e : Entry) :
    (e.withPid node pid).node = e.node := by
  unfold withPid
  split <;> rfl

@[simp] theorem Entry.usr_withPid (node pid : ℕ) (e : Entry) :
    (e.withPid node pid).usr = e.usr := by
  unfold withPid
  split <;> rfl

@[simp] theorem Entry.user_withPid (node pid : ℕ) (e : Entry) :
    (e.withPid node pid).user = e.user := by
  unfold withPid
  split <;> rfl

namespace Holds

variable {h : Heap} {es : List Entry} (hh : h.Holds es)
include hh

/-- Writing a user. -/
theorem setUser (usr : ℕ) (u : UserStruct) :
    (h.setUser usr u).Holds (es.map (Entry.withUser usr u)) where
  linked := by
    rw [List.map_map]
    have hnodes : Entry.node ∘ Entry.withUser usr u = Entry.node := funext fun _ => by simp
    rw [hnodes]
    exact hh.linked
  tail := by
    rw [List.map_map]
    have hnodes : Entry.node ∘ Entry.withUser usr u = Entry.node := funext fun _ => by simp
    rw [hnodes]
    exact hh.tail
  nodes := by
    intro e' he'
    obtain ⟨e₀, he₀, rfl⟩ := List.mem_map.mp he'
    simpa using hh.nodes e₀ he₀
  structs := by
    intro e' he'
    obtain ⟨e₀, he₀, rfl⟩ := List.mem_map.mp he'
    rw [Entry.usr_withUser]
    unfold Entry.withUser
    split_ifs with heq
    · rw [heq]
      exact structs_setUser_self u
    · rw [structs_setUser_of_ne heq]
      exact hh.structs e₀ he₀
  usrs := by
    rw [List.map_map]
    have husrs : Entry.usr ∘ Entry.withUser usr u = Entry.usr := funext fun _ => by simp
    rw [husrs]
    exact hh.usrs

/-- Writing the id of an entry. -/
theorem setPid {node : ℕ} {n : ListUser} (hn : h.nodes node = some n) (pid : ℕ) :
    (h.setNode node { n with pid := pid }).Holds (es.map (Entry.withPid node pid)) where
  linked := by
    rw [List.map_map]
    have hnodes : Entry.node ∘ Entry.withPid node pid = Entry.node := funext fun _ => by simp
    rw [hnodes]
    apply hh.linked.congr
    intro a _ n' hn'
    by_cases ha : a = node
    · subst ha
      obtain rfl := Option.some.inj (hn.symm.trans hn')
      exact ⟨_, nodes_setNode_self _, rfl, rfl⟩
    · exact ⟨n', (nodes_setNode_of_ne ha _).trans hn', rfl, rfl⟩
  tail := by
    rw [List.map_map]
    have hnodes : Entry.node ∘ Entry.withPid node pid = Entry.node := funext fun _ => by simp
    rw [hnodes]
    exact hh.tail
  nodes := by
    intro e' he'
    obtain ⟨e₀, he₀, rfl⟩ := List.mem_map.mp he'
    obtain ⟨n₀, hn₀, husr, hpid⟩ := hh.nodes e₀ he₀
    unfold Entry.withPid
    split_ifs with heq
    · dsimp only
      rw [heq] at hn₀ ⊢
      obtain rfl := Option.some.inj (hn.symm.trans hn₀)
      exact ⟨_, nodes_setNode_self _, husr, rfl⟩
    · exact ⟨n₀, (nodes_setNode_of_ne heq _).trans hn₀, husr, hpid⟩
  structs := by
    intro e' he'
    obtain ⟨e₀, he₀, rfl⟩ := List.mem_map.mp he'
    simpa using hh.structs e₀ he₀
  usrs := by
    rw [List.map_map]
    have husrs : Entry.usr ∘ Entry.withPid node pid = Entry.usr := funext fun _ => by simp
    rw [husrs]
    exact hh.usrs

/-- A fresh address is that of no user in the list. -/
theorem usr_ne {a : ℕ} (ha : h.structs a = none) {e : Entry} (he : e ∈ es) : e.usr ≠ a := by
  intro heq
  have hsome := hh.structs e he
  rw [heq, ha] at hsome
  cases hsome

/-- A fresh address is that of no entry in the list. -/
theorem node_ne {a : ℕ} (ha : h.nodes a = none) {e : Entry} (he : e ∈ es) : e.node ≠ a := by
  intro heq
  obtain ⟨n, hn, -⟩ := hh.nodes e he
  rw [heq, ha] at hn
  cases hn

/-- The memory when a new entry has been linked in. -/
theorem concat {h' : Heap} {new : Entry} (husr : h.structs new.usr = none)
    (hstructs : h'.structs = Function.update h.structs new.usr (some new.user))
    (hlinked : Linked ListUser.next ListUser.prev h'.nodes none h'.userListHead
      (es.map Entry.node ++ [new.node]))
    (htail : h'.userListTail = some new.node)
    (hold : ∀ e ∈ es, ∃ n, h'.nodes e.node = some n ∧ n.currUser = some e.usr ∧ n.pid = e.pid)
    (hnew : ∃ n, h'.nodes new.node = some n ∧ n.currUser = some new.usr ∧ n.pid = new.pid) :
    h'.Holds (es ++ [new]) where
  linked := by
    rw [List.map_append]
    exact hlinked
  tail := by
    rw [htail, List.map_append, List.map_singleton, List.getLast?_concat]
  nodes := by
    intro e he
    rcases List.mem_append.mp he with hmem | hmem
    · exact hold e hmem
    · rw [List.mem_singleton.mp hmem]
      exact hnew
  structs := by
    intro e he
    rw [hstructs]
    rcases List.mem_append.mp he with hmem | hmem
    · rw [Function.update_of_ne (hh.usr_ne husr hmem)]
      exact hh.structs e hmem
    · rw [List.mem_singleton.mp hmem, Function.update_self]
  usrs := by
    rw [List.map_append, List.nodup_append]
    refine ⟨hh.usrs, List.nodup_singleton _, ?_⟩
    intro a ha b hb heq
    obtain ⟨e, he, rfl⟩ := List.mem_map.mp ha
    exact hh.usr_ne husr he (heq.trans (List.mem_singleton.mp hb))

omit hh in
/-- The memory when a new entry is linked in behind the last one, by what is at its addresses. -/
theorem concat_behind {h' : Heap} {l new : Entry} (hh : h.Holds (es ++ [l]))
    (husr : h.structs new.usr = none) {n n' : ListUser} (hn : h.nodes l.node = some n)
    (hstructs : h'.structs = Function.update h.structs new.usr (some new.user))
    (hhead : h'.userListHead = h.userListHead) (htail : h'.userListTail = some new.node)
    (hkeep : ∀ e ∈ es, h'.nodes e.node = h.nodes e.node)
    (hlast : h'.nodes l.node = some { n with next := some new.node })
    (hn' : h'.nodes new.node = some n') (hprev : n'.prev = some l.node) (hnext : n'.next = none)
    (hcurr : n'.currUser = some new.usr) (hpid : n'.pid = new.pid) :
    h'.Holds (es ++ [l] ++ [new]) := by
  refine hh.concat husr hstructs ?_ htail ?_ ⟨n', hn', hcurr, hpid⟩
  · have hlinked := hh.linked
    rw [List.map_append, List.map_singleton] at hlinked ⊢
    rw [hhead]
    apply hlinked.concat
    · intro a ha
      obtain ⟨e, he, rfl⟩ := List.mem_map.mp ha
      exact hkeep e he
    · intro n₀ hn₀
      obtain rfl := Option.some.inj (hn.symm.trans hn₀)
      exact ⟨_, hlast, rfl, rfl⟩
    · exact hn'
    · exact hnext
    · exact hprev
  · intro e he
    obtain ⟨n₀, hn₀, hrest⟩ := hh.nodes e he
    rcases List.mem_append.mp he with hmem | hmem
    · exact ⟨n₀, (hkeep e hmem).trans hn₀, hrest⟩
    · obtain rfl := List.mem_singleton.mp hmem
      obtain rfl := Option.some.inj (hn.symm.trans hn₀)
      exact ⟨_, hlast, hrest⟩

/-- **Linking a user in**: the entry goes to the end of the list, whether or not there is one. -/
theorem linkUser {s : Started} (husr : h.structs s.usr = none) (hnode : h.nodes s.node = none)
    (name : Bytes) : ∃ h', (Heap.linkUser s name).run h = (.ok (), h') ∧
      h'.Holds (es ++ [⟨s.node, s.usr, ⟨name, 0, 0, 0, 0, false⟩, 0⟩]) ∧ h'.wrote = h.wrote := by
  let h₁ : Heap :=
    (h.setUser s.usr ⟨name, 0, 0, 0, 0, false⟩).setNode s.node ⟨some s.usr, 0, none, none⟩
  have hrun : (Heap.linkUser s name).run h = (match h.userListHead with
      | none => Eff.modify fun h =>
          { h with userListHead := some s.node, userListTail := some s.node }
      | some _ => do
          let tail ← deref h.userListTail
          updateNode tail fun n => { n with next := some s.node }
          updateNode s.node fun n => { n with prev := h.userListTail }
          Eff.modify fun h => { h with userListTail := some s.node } : HeapM Unit).run h₁ := rfl
  rcases List.eq_nil_or_concat' es with rfl | ⟨es₀, l, rfl⟩
  · have hhead : h.userListHead = none := hh.linked
    rw [hrun, hhead]
    refine ⟨_, rfl, hh.concat husr rfl ⟨rfl, ?_⟩ rfl (fun e he => by cases he) ?_, rfl⟩
    · exact ⟨_, nodes_setNode_self _, rfl, rfl⟩
    · exact ⟨_, nodes_setNode_self _, rfl, rfl⟩
  · have hnodes : (es₀ ++ [l]).map Entry.node = es₀.map Entry.node ++ [l.node] := by simp
    have hl : l ∈ es₀ ++ [l] := by simp
    have htail : h.userListTail = some l.node := by
      rw [hh.tail, hnodes, List.getLast?_concat]
    obtain ⟨first, hhead⟩ : ∃ first, h.userListHead = some first := by
      rw [hh.linked.head, hnodes]
      cases es₀ <;> simp
    obtain ⟨n, hn, -⟩ := hh.nodes l hl
    have hne := hh.node_ne hnode hl
    let h₂ : Heap := h₁.setNode l.node { n with next := some s.node }
    have hlast : h₁.nodes l.node = some n := (nodes_setNode_of_ne hne _).trans hn
    have hfresh : h₂.nodes s.node = some ⟨some s.usr, 0, none, none⟩ :=
      (nodes_setNode_of_ne hne.symm _).trans (nodes_setNode_self _)
    let h₃ : Heap := h₂.setNode s.node ⟨some s.usr, 0, none, some l.node⟩
    have hlast₃ : h₃.nodes l.node = some { n with next := some s.node } :=
      (nodes_setNode_of_ne hne _).trans (nodes_setNode_self _)
    have hkeep : ∀ e ∈ es₀, h₃.nodes e.node = h.nodes e.node := by
      intro e he
      have hnodup := hh.linked.nodup
      rw [hnodes, List.nodup_append] at hnodup
      have hel : e.node ≠ l.node :=
        hnodup.2.2 _ (List.mem_map_of_mem he) _ (List.mem_singleton_self _)
      have hes : e.node ≠ s.node := hh.node_ne hnode (List.mem_append_left _ he)
      exact (nodes_setNode_of_ne hes _).trans
        ((nodes_setNode_of_ne hel _).trans (nodes_setNode_of_ne hes _))
    rw [hrun, hhead, htail]
    dsimp only [deref]
    rw [Eff.run_pure_bind, Eff.run_bind_ok (run_updateNode hlast _),
      Eff.run_bind_ok (run_updateNode hfresh _), Eff.run_modify]
    refine ⟨_, rfl, ?_, rfl⟩
    exact hh.concat_behind husr hn rfl rfl rfl hkeep hlast₃ (nodes_setNode_self _) rfl rfl rfl rfl

omit hh in
/-- Writing the user of one entry. -/
theorem setEntryUser {pre post : List Entry} {e : Entry} (hh : h.Holds (pre ++ e :: post))
    (u : UserStruct) : (h.setUser e.usr u).Holds (pre ++ { e with user := u } :: post) := by
  have hset := hh.setUser e.usr u
  have hnodup := hh.usrs
  rw [List.map_append, List.map_cons, List.nodup_append, List.nodup_cons] at hnodup
  obtain ⟨-, ⟨hpost, -⟩, hpre⟩ := hnodup
  have hbefore : ∀ e' ∈ pre, e'.withUser e.usr u = e' :=
    fun e' he' => if_neg (hpre _ (List.mem_map_of_mem he') _ List.mem_cons_self)
  have hbehind : ∀ e' ∈ post, e'.withUser e.usr u = e' :=
    fun e' he' => if_neg fun heq : e'.usr = e.usr => hpost (heq ▸ List.mem_map_of_mem he')
  have hself : e.withUser e.usr u = { e with user := u } := if_pos rfl
  rwa [List.map_append, List.map_cons, List.map_congr_left hbefore, List.map_congr_left hbehind,
    List.map_id', List.map_id', hself] at hset

omit hh in
/-- Writing the id of the last entry. -/
theorem setLastPid {e : Entry} (hlast : h.Holds (es ++ [e])) {n : ListUser}
    (hn : h.nodes e.node = some n) (pid : ℕ) :
    (h.setNode e.node { n with pid := pid }).Holds (es ++ [{ e with pid := pid }]) := by
  have hset := hlast.setPid hn pid
  have hother : ∀ e' ∈ es, e'.withPid e.node pid = e' := by
    intro e' he'
    have hnodup := hlast.linked.nodup
    rw [List.map_append, List.nodup_append] at hnodup
    exact if_neg (hnodup.2.2 _ (List.mem_map_of_mem he') _ (List.mem_singleton_self _))
  have hself : e.withPid e.node pid = { e with pid := pid } := if_pos rfl
  rwa [List.map_append, List.map_congr_left hother, List.map_id', List.map_singleton, hself] at hset

/-- What is written does not touch the list. -/
theorem withWrote (wrote : List (Fd × Bytes)) : Holds { h with wrote := wrote } es :=
  ⟨hh.linked, hh.tail, hh.nodes, hh.structs, hh.usrs⟩

/-- **A new user** has its pipe, is active, and its entry has the id of its window. -/
theorem createNewUser {s : Started} (husr : h.structs s.usr = none) (hnode : h.nodes s.node = none)
    (name : Bytes) : ∃ h', (Heap.createNewUser s name).run h = (.ok s.usr, h') ∧
      h'.Holds (es ++ [s.entry name]) ∧
        h'.wrote = h.wrote := by
  obtain ⟨h₁, hrun, hh₁, hwrote⟩ := hh.linkUser husr hnode name
  have hh₂ := hh₁.setEntryUser ⟨name, 0, 0, s.rd, 0, false⟩
  have hh₃ := hh₂.setEntryUser ⟨name, 0, 0, s.rd, s.wrt, false⟩
  have hh₄ := hh₃.setEntryUser ⟨name, 0, 0, s.rd, s.wrt, true⟩
  obtain ⟨n, hn, -, -⟩ := hh₄.nodes _ (List.mem_append_right _ (List.mem_singleton_self _))
  refine ⟨_, ?_, hh₄.setLastPid hn s.childpid, hwrote⟩
  unfold Heap.createNewUser
  rw [Eff.run_bind_ok hrun,
    Eff.run_bind_ok
      (run_updateUser (hh₁.structs _ (List.mem_append_right _ (List.mem_singleton_self _))) _),
    Eff.run_bind_ok
      (run_updateUser (hh₂.structs _ (List.mem_append_right _ (List.mem_singleton_self _))) _),
    Eff.run_bind_ok
      (run_updateUser (hh₃.structs _ (List.mem_append_right _ (List.mem_singleton_self _))) _),
    Eff.run_bind_ok (run_updateNode hn _), Eff.run_pure]

end Holds

/-- The usernames, in the order of the list. -/
def names (es : List Entry) : List Bytes := es.map fun e => e.user.username

/-- The list when a message for the user `w` has been handled. -/
def added (s : Started) (w : Bytes) (es : List Entry) : List Entry :=
  if w ∈ names es then es else es ++ [s.entry w]

/-- The loop finds a user of the name iff there is one. -/
theorem find?_username_eq_none_iff {es : List Entry} {w : Bytes} :
    es.find? (·.user.username == w) = none ↔ w ∉ names es := by
  simp [names, List.find?_eq_none]

/-- The addresses that `calloc` returns are not in use. -/
structure Started.Fresh (s : Started) (h : Heap) : Prop where
  usr : h.structs s.usr = none
  node : h.nodes s.node = none

namespace Holds

variable {h : Heap} {es : List Entry} (hh : h.Holds es)
include hh

omit hh in
/-- What is behind the first word goes to the pipe of the user. -/
theorem run_writeText {u : ℕ} {v : UserStruct} (hv : h.structs u = some v) (q : Block) :
    (do
      let text ← mem (cstr q)
      let u ← loadUser u
      Eff.modify fun h => { h with wrote := h.wrote ++ [(.pipe u.wrt, text)] } : HeapM Unit).run h =
    (match cstr q with
      | .ok text => (.ok (), { h with wrote := h.wrote ++ [(.pipe v.wrt, text)] })
      | .error f => (.error (.fault f), h)) := by
  cases cstr q with
  | error f => rfl
  | ok text =>
      rw [run_mem_ok_bind, Eff.run_bind_ok (run_loadUser hv)]
      rfl

/-- The first word is looked up in the list. -/
theorem run_processMsg (s : Started) {w : Bytes} (hw : IsWord w) {b : UInt8}
    (hb : IsSep b) (q : Block) {fuel : ℕ} (hfuel : es.length ≤ fuel) :
    (Heap.processMsg s (cells w ++ some b :: q) fuel).run h = (do
      let tempUser ← match (es.find? (·.user.username == w)).map Entry.usr with
        | some u => pure u
        | none => Heap.createNewUser s w
      let text ← mem (cstr q)
      let u ← loadUser tempUser
      Eff.modify fun h =>
          { h with wrote := h.wrote ++ [(.pipe u.wrt, text)] } : HeapM Unit).run h := by
  have hdrop : (cells w ++ some b :: q).drop (w.length + 1) = q := by
    have hsplit : cells w ++ some b :: q = (cells w ++ [some b]) ++ q := by simp
    rw [hsplit, List.drop_left' (by simp)]
  have hname : cstr (textBlock w 1) = .ok w := cstr_textBlock hw.zero_notMem Nat.one_ne_zero
  unfold Heap.processMsg
  rw [wordLength_cells hw hb, run_mem_ok_bind, memcpy_cells_word, run_mem_ok_bind, hname,
    run_mem_ok_bind, Eff.run_bind_ok (hh.findUser w hfuel), hdrop]

/-- **A call of `process_msg`**: an entry is added for a new name, and what is behind the first word
goes to the pipe of the user. -/
theorem processMsg {s : Started} (hs : s.Fresh h) {w : Bytes} (hw : IsWord w) {b : UInt8}
    (hb : IsSep b) (q : Block) : ∃ h₁ e, h₁.Holds (added s w es) ∧ h₁.wrote = h.wrote ∧
      (added s w es).find? (·.user.username == w) = some e ∧
      Eff.Settles (Heap.processMsg s (cells w ++ some b :: q)) h (match cstr q with
        | .ok text => (.ok (), { h₁ with wrote := h₁.wrote ++ [(.pipe e.user.wrt, text)] })
        | .error f => (.error (.fault f), h₁)) := by
  cases hfind : es.find? (·.user.username == w) with
  | some e =>
      have hmem : w ∈ names es := by
        by_contra hno
        rw [find?_username_eq_none_iff.mpr hno] at hfind
        cases hfind
      have hadded : added s w es = es := if_pos hmem
      refine ⟨h, e, ?_, rfl, ?_, es.length, fun fuel hfuel => ?_⟩
      · rwa [hadded]
      · rwa [hadded]
      · rw [hh.run_processMsg s hw hb q hfuel, hfind]
        exact run_writeText (hh.structs e (List.mem_of_find?_eq_some hfind)) q
  | none =>
      have hadded : added s w es = es ++ [s.entry w] := if_neg (find?_username_eq_none_iff.mp hfind)
      obtain ⟨h₁, hrun, hh₁, hwrote⟩ := hh.createNewUser hs.usr hs.node w
      have hnew := hh₁.structs (s.entry w) (List.mem_append_right _ (List.mem_singleton_self _))
      rw [hadded]
      refine ⟨h₁, s.entry w, hh₁, hwrote, ?_, es.length, fun fuel hfuel => ?_⟩
      · rw [List.find?_append, hfind]
        simp [Started.entry]
      · rw [hh.run_processMsg s hw hb q hfuel, hfind]
        dsimp only [Option.map]
        rw [Eff.run_bind_ok hrun]
        exact run_writeText hnew q

/-- **A closed window**: the user of the first entry with the id is marked as inactive; without one,
a null pointer is followed. -/
theorem sigchild (pid : ℕ) :
    Eff.Settles (Heap.sigchild pid) h (match es.find? (·.pid == pid) with
      | some e => (.ok (), h.setUser e.usr { e.user with active := false })
      | none => (.error (.fault .nullPointer), h)) := by
  refine ⟨es.length, fun fuel hfuel => ?_⟩
  unfold Heap.sigchild
  rw [Eff.run_bind_ok (hh.findUserPid pid hfuel)]
  cases hfind : es.find? (·.pid == pid) with
  | none => rfl
  | some e =>
      have he := List.mem_of_find?_eq_some hfind
      obtain ⟨n, hn, husr, -⟩ := hh.nodes e he
      dsimp only [Option.map, deref]
      rw [Eff.run_pure_bind, Eff.run_bind_ok (run_loadNode hn), husr]
      exact run_updateUser (hh.structs e he) _

end Holds

end Heap

end ME2U.Client
