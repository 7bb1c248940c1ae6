import Mathlib.Data.Finset.Card
import ME2U.Client.UserListRuns

/-!
# The loop over the windows ends

`any_children_replied` goes along the list of the users. Where a `read` returns 0 it clears `active`
and goes on with the same entry, so that the entries alone do not bound its iterations: each of
these takes one user less that is active. `sigchild_handler` may run anywhere in between, and only
makes users inactive.

* `ChildPoint.step`: the loop, one step at a time.
* `ChildRun.Step`: its steps and the handler, in any order.
* `ChildRun.Inv`: the account of iterations, entries passed and active users, at every point.
* `ChildRun.terminates`: the bounds on iterations and steps, and no return to an entry.
* `ChildRun.represents`: a loop that the handler does not disturb does what it does on the list of
  users.
-/

namespace ME2U.Client

open Heap

/-! ## The loop -/

/-- What the loop does with an entry. -/
inductive Mark
  /-- An iteration begins with `temp` at the entry. -/
  | visits (a : ℕ)
  /-- `temp = temp->next` -/
  | passes (a : ℕ)
  deriving DecidableEq

/-- The variables of the loop, and its memory. -/
structure ChildLoop where
  heap : Heap
  temp : Option ℕ
  readBuf : Block
  /-- What was done, oldest first. -/
  marks : List Mark

/-- A part of the loop. -/
abbrev ChildM (α : Type) := Eff ChildLoop Halt α

/-- The points between the steps. -/
inductive ChildPoint
  /-- At the condition of the loop. -/
  | top
  /-- At the `read` from the window. -/
  | reading
  /-- `read` has returned 0. -/
  | closed
  /-- `read` has returned something else. -/
  | replied
  /-- At the end of the body. -/
  | advance
  deriving DecidableEq

namespace ChildLoop

/-- A step on the memory of the client. -/
def onHeap {α : Type} (m : HeapM α) : ChildM α :=
  Eff.zoom heap (fun h l => { l with heap := h }) id m

/-- A mark is made. -/
def mark (m : Mark) : ChildM Unit := Eff.modify fun l => { l with marks := l.marks ++ [m] }

/-- The address in `temp->curr_user`, which is not null. -/
def currUser : ChildM ℕ := do
  let l ← Eff.get
  let a ← onHeap (Heap.deref l.temp)
  let n ← onHeap (loadNode a)
  onHeap (Heap.deref n.currUser)

end ChildLoop

open ChildLoop

/-- The step at a point, where `r` is what a `read` returns; the next point, if the loop goes on.
Source: `client.c` `any_children_replied` (lines 321–372) -/
def ChildPoint.step (slack : Slack) (rset : List ℕ) (r : ReadResult) :
    ChildPoint → ChildM (Option ChildPoint)
  | .top => do
      let l ← Eff.get
      match l.temp with
      | none => pure none
      | some a => do
          mark (.visits a)
          let n ← onHeap (loadNode a)
          match n.currUser with
          | none => pure (some .advance)
          | some usr => do
              let u ← onHeap (loadUser usr)
              -- what is done for either end of the pipe is the same
              if u.active ∧ (u.rd ∈ rset ∨ u.wrt ∈ rset) then pure (some .reading)
              else pure (some .advance)
  | .reading =>
      match r with
      | .eof => pure (some .closed)
      | .failed => pure (some .replied)
      | .data b => do
          let l ← Eff.get
          let blk ← mem (store l.readBuf 0 (cells b))
          Eff.modify fun l => { l with readBuf := blk }
          pure (some .replied)
  | .closed => do
      let usr ← currUser
      onHeap (updateUser usr fun u => { u with active := false })
      -- `continue`
      pure (some .top)
  | .replied => do
      let usr ← currUser
      let u ← onHeap (loadUser usr)
      let l ← Eff.get
      let newStr ← mem (childFrame slack u.username l.readBuf)
      onHeap (Eff.modify fun h =>
        { h with wrote := h.wrote ++ [(.stdout, newStr), (.sock, newStr)] })
      pure (some .advance)
  | .advance => do
      let l ← Eff.get
      let a ← onHeap (Heap.deref l.temp)
      let n ← onHeap (loadNode a)
      mark (.passes a)
      Eff.modify fun l => { l with temp := n.next }
      pure (some .top)

/-! ## Runs -/

/-- A run of the loop. -/
structure ChildRun where
  loop : ChildLoop
  /-- `none` when the loop, or the client, has ended. -/
  point : Option ChildPoint
  /-- How many steps the loop has taken. -/
  steps : ℕ

/-- What happens in a run. -/
inductive ChildEvent
  /-- The loop takes a step; a `read` in it returns this. -/
  | goesOn (r : ReadResult)
  /-- `sigchild_handler` runs, and `waitpid` returns this id. -/
  | handles (pid : ℕ)

/-- The point after a step. -/
def pointAfter : Except Halt (Option ChildPoint) → Option ChildPoint
  | .ok p => p
  | .error _ => none

/-- The steps of a run. -/
def ChildRun.Step (slack : Slack) (rset : List ℕ) (s : ChildRun) : ChildEvent → ChildRun → Prop
  | .goesOn r, s' => ∃ p, s.point = some p ∧
      s' = ⟨((p.step slack rset r).run s.loop).2, pointAfter ((p.step slack rset r).run s.loop).1,
        s.steps + 1⟩
  | .handles pid, s' => ∃ p out h', s.point = some p ∧
      Eff.Settles (Heap.sigchild pid) s.loop.heap (out, h') ∧
        s' = { s with
          loop := { s.loop with heap := h' }
          point := if out = .ok () then some p else none }

/-- The start of a run, with the list of the users in memory. -/
structure ChildRun.Starts (as : List ℕ) (s : ChildRun) : Prop where
  listed : Listed ListUser.next s.loop.heap.nodes s.loop.heap.userListHead as
  temp : s.loop.temp = s.loop.heap.userListHead
  marks : s.loop.marks = []
  point : s.point = some .top
  steps : s.steps = 0

/-- The states that the runs from `s₀` reach. -/
abbrev ChildRun.ReachedFrom (slack : Slack) (rset : List ℕ) (s₀ : ChildRun) : ChildRun → Prop :=
  Reachable (· = s₀) (ChildRun.Step slack rset)

/-! ## What is counted -/

/-- The address of the entry, where the mark is an advance. -/
def Mark.passed : Mark → Option ℕ
  | .visits _ => none
  | .passes a => some a

/-- How many iterations there were. -/
def iterations (ms : List Mark) : ℕ := ms.countP fun m => m.passed.isNone

/-- The entries that were passed, in order. -/
def passedEntries (ms : List Mark) : List ℕ := ms.filterMap Mark.passed

/-- No entry is visited once it was passed. -/
def NoReturn (ms : List Mark) : Prop := ms.Pairwise fun m m' => ∀ a, m = .passes a → m' ≠ .visits a

/-- The users of a list that are active. -/
def activeUsers (h : Heap) (as : List ℕ) : Finset ℕ :=
  (as.filterMap fun a => (h.nodes a).bind ListUser.currUser).toFinset.filter fun u =>
    (h.structs u).any UserStruct.active

/-- The number of iterations that the loop may take. -/
def childBound (h : Heap) (as : List ℕ) : ℕ := as.length + (activeUsers h as).card

/-- A user is active if an entry leads to it and its flag is set. -/
theorem mem_activeUsers {h : Heap} {as : List ℕ} {u : ℕ} :
    u ∈ activeUsers h as ↔ (∃ a ∈ as, ∃ n, h.nodes a = some n ∧ n.currUser = some u) ∧
      ∃ v, h.structs u = some v ∧ v.active = true := by
  simp [activeUsers, Option.bind_eq_some_iff, Option.any_eq_true]

/-! ## What happens to the memory -/

/-- The entries are the same, and no user is active that was not. -/
structure Heap.Calmer (h h' : Heap) : Prop where
  nodes : h'.nodes = h.nodes
  active : ∀ u v', h'.structs u = some v' → v'.active = true → ∃ v,
    h.structs u = some v ∧ v.active = true

namespace Heap.Calmer

/-- A memory is as calm as itself. -/
theorem refl (h : Heap) : h.Calmer h := ⟨rfl, fun _ v' hv' hact => ⟨v', hv', hact⟩⟩

/-- Calming down twice is calming down. -/
theorem trans {h h' h'' : Heap} (h₁ : h.Calmer h') (h₂ : h'.Calmer h'') : h.Calmer h'' := by
  refine ⟨h₂.nodes.trans h₁.nodes, fun u v hv hact => ?_⟩
  obtain ⟨v', hv', hact'⟩ := h₂.active u v hv hact
  exact h₁.active u v' hv' hact'

/-- Making a user inactive. -/
theorem setUser (h : Heap) (u : ℕ) (v : UserStruct) :
    h.Calmer (h.setUser u { v with active := false }) := by
  refine ⟨rfl, fun u' v' hv' hact => ?_⟩
  by_cases hu : u' = u
  · subst hu
    rw [structs_setUser_self] at hv'
    obtain rfl := Option.some.inj hv'
    cases hact
  · rw [structs_setUser_of_ne hu] at hv'
    exact ⟨v', hv', hact⟩

/-- No user gets active. -/
theorem activeUsers_subset {h h' : Heap} (hh : h.Calmer h') (as : List ℕ) :
    activeUsers h' as ⊆ activeUsers h as := by
  intro u hu
  obtain ⟨hlisted, v', hv', hact⟩ := mem_activeUsers.mp hu
  rw [hh.nodes] at hlisted
  exact mem_activeUsers.mpr ⟨hlisted, hh.active u v' hv' hact⟩

end Heap.Calmer

section Keeps

variable {I : Heap → Prop}

/-- Following a pointer changes nothing. -/
theorem keeps_deref (p : Option ℕ) : Eff.Keeps I (Heap.deref p) := by
  cases p with
  | none => exact .lift _
  | some a => exact .pure a

/-- So does reading an entry. -/
theorem keeps_loadNode (a : ℕ) : Eff.Keeps I (loadNode a) := by
  refine .get_bind fun h hh => ?_
  cases h.nodes a <;> exact hh

/-- So does the search for a process id. -/
theorem keeps_findUserPid (pid fuel : ℕ) : Eff.Keeps I (Heap.findUserPid pid fuel) := by
  refine .get_bind fun h hh => ?_
  cases scan ListUser.next h.nodes (fun n => some (n.pid == pid)) fuel h.userListHead <;> exact hh

end Keeps

/-- `active = false` -/
theorem calmer_deactivate (h : Heap) (u : ℕ) :
    Eff.Keeps h.Calmer (updateUser u fun v => { v with active := false }) := by
  intro h' hh'
  unfold updateUser loadUser
  rw [Eff.bind_assoc, Eff.run_get_bind]
  cases h'.structs u with
  | none => exact hh'
  | some v => exact hh'.trans (.setUser h' u v)

/-- The handler makes a user inactive, or does nothing. -/
theorem Heap.Calmer.sigchild {h h' : Heap} {pid : ℕ} {out : Except Halt Unit}
    (hset : Eff.Settles (Heap.sigchild pid) h (out, h')) : h.Calmer h' := by
  obtain ⟨fuel, hrun⟩ := hset
  have hkeeps : Eff.Keeps h.Calmer (Heap.sigchild pid fuel) := by
    unfold Heap.sigchild
    refine .bind (keeps_findUserPid pid fuel) fun temp => .bind (keeps_deref temp) fun a =>
      .bind (keeps_loadNode a) fun n => ?_
    cases n.currUser with
    | none => exact .stop _
    | some u => exact calmer_deactivate h u
  have hcalmer := hkeeps h (.refl h)
  rw [hrun fuel le_rfl] at hcalmer
  exact hcalmer

/-! ## The account -/

/-- The iterations of a step that is not finished are ahead of the account by one, which is settled
by the entry that will be passed or the user that will be inactive. -/
def ChildPoint.Account (h₀ : Heap) (as : List ℕ) (l : ChildLoop) : ChildPoint → Prop
  | .top => iterations l.marks + (activeUsers l.heap as).card ≤
      (passedEntries l.marks).length + (activeUsers h₀ as).card
  | .advance => l.temp ≠ none ∧ iterations l.marks + (activeUsers l.heap as).card ≤
      (passedEntries l.marks).length + 1 + (activeUsers h₀ as).card
  | _ => ∃ a n u, l.temp = some a ∧ h₀.nodes a = some n ∧ n.currUser = some u ∧
      iterations l.marks + ((activeUsers l.heap as).erase u).card ≤
        (passedEntries l.marks).length + (activeUsers h₀ as).card

/-- The steps that are left in an iteration, at most. -/
def ChildPoint.left : ChildPoint → ℕ
  | .top => 0
  | .reading => 3
  | .closed => 1
  | .replied => 2
  | .advance => 1

/-- **What holds at a point of the loop**, for the list `as` of the memory `h₀`. -/
structure ChildPoint.Inv (h₀ : Heap) (as : List ℕ) (p : ChildPoint) (l : ChildLoop) (steps : ℕ) :
    Prop where
  calmer : h₀.Calmer l.heap
  listed : ∃ todo, as = passedEntries l.marks ++ todo ∧ Listed ListUser.next h₀.nodes l.temp todo
  noReturn : NoReturn l.marks
  account : p.Account h₀ as l
  steps : steps + p.left ≤ 4 * iterations l.marks

/-- What is claimed of the marks and the steps. -/
structure WithinBound (h₀ : Heap) (as : List ℕ) (ms : List Mark) (steps : ℕ) : Prop where
  iterations : iterations ms ≤ childBound h₀ as
  steps : steps ≤ 4 * childBound h₀ as + 1
  noReturn : NoReturn ms

/-- A visit is one more iteration. -/
theorem iterations_append_visits (ms : List Mark) (a : ℕ) :
    iterations (ms ++ [.visits a]) = iterations ms + 1 := by
  rw [iterations, List.countP_append]
  rfl

/-- The way to the next entry is none. -/
theorem iterations_append_passes (ms : List Mark) (a : ℕ) :
    iterations (ms ++ [.passes a]) = iterations ms := by
  rw [iterations, List.countP_append]
  rfl

/-- An entry that is visited is not passed yet. -/
theorem passedEntries_append_visits (ms : List Mark) (a : ℕ) :
    passedEntries (ms ++ [.visits a]) = passedEntries ms := by
  rw [passedEntries, List.filterMap_append]
  exact List.append_nil _

/-- An entry that is passed is the last of them. -/
theorem passedEntries_append_passes (ms : List Mark) (a : ℕ) :
    passedEntries (ms ++ [.passes a]) = passedEntries ms ++ [a] := by
  rw [passedEntries, List.filterMap_append]
  rfl

/-- A mark names an entry that was passed. -/
theorem mem_passedEntries {ms : List Mark} {a : ℕ} (h : .passes a ∈ ms) : a ∈ passedEntries ms :=
  List.mem_filterMap.mpr ⟨.passes a, h, rfl⟩

/-- An entry that was not passed may be visited. -/
theorem NoReturn.visits {ms : List Mark} (h : NoReturn ms) {a : ℕ} (ha : a ∉ passedEntries ms) :
    NoReturn (ms ++ [.visits a]) := by
  refine List.pairwise_append.mpr ⟨h, List.pairwise_singleton _ _, ?_⟩
  intro m hm m' hm' b hb hb'
  obtain rfl := List.mem_singleton.mp hm'
  obtain rfl : a = b := Mark.visits.inj hb'
  exact ha (mem_passedEntries (hb ▸ hm))

/-- Passing an entry is no return to it. -/
theorem NoReturn.passes {ms : List Mark} (h : NoReturn ms) (a : ℕ) :
    NoReturn (ms ++ [.passes a]) := by
  refine List.pairwise_append.mpr ⟨h, List.pairwise_singleton _ _, ?_⟩
  intro m hm m' hm' b hb hb'
  obtain rfl := List.mem_singleton.mp hm'
  cases hb'

section Step

variable {h₀ : Heap} {as : List ℕ} {l : ChildLoop} {steps : ℕ}

namespace ChildPoint.Inv

/-- At an entry there is one more to pass. -/
theorem length_passed_lt {p : ChildPoint} (h : p.Inv h₀ as l steps) (htemp : l.temp ≠ none) :
    (passedEntries l.marks).length < as.length := by
  obtain ⟨todo, has, hlisted⟩ := h.listed
  cases todo with
  | nil => exact absurd hlisted htemp
  | cons a todo =>
      rw [has, List.length_append, List.length_cons]
      omega

/-- At every point the bound holds, and one step more is within it. -/
theorem withinBound {p : ChildPoint} (h : p.Inv h₀ as l steps) {k : ℕ} (hk : k ≤ steps + 1) :
    WithinBound h₀ as l.marks k := by
  have hiter : iterations l.marks ≤ childBound h₀ as := by
    have haccount := h.account
    unfold childBound
    cases p with
    | top =>
        obtain ⟨todo, has, -⟩ := h.listed
        have hle : (passedEntries l.marks).length ≤ as.length := by
          rw [has, List.length_append]
          exact Nat.le_add_right _ _
        have htop : iterations l.marks + (activeUsers l.heap as).card ≤
          (passedEntries l.marks).length + (activeUsers h₀ as).card := haccount
        omega
    | advance =>
        have hlt := h.length_passed_lt haccount.1
        have hadvance := haccount.2
        omega
    | reading | closed | replied =>
        obtain ⟨a, n, u, htemp, -, -, hle⟩ := haccount
        have hlt := h.length_passed_lt (by rw [htemp]; exact Option.some_ne_none a)
        omega
  have hsteps := h.steps
  exact ⟨hiter, by omega, h.noReturn⟩

end ChildPoint.Inv

/-- **What holds of a run.** -/
structure ChildRun.Inv (h₀ : Heap) (as : List ℕ) (s : ChildRun) : Prop where
  bound : WithinBound h₀ as s.loop.marks s.steps
  point : ∀ p, s.point = some p → p.Inv h₀ as s.loop s.steps

/-- What holds behind a step. -/
def Leads (h₀ : Heap) (as : List ℕ) (out : Except Halt (Option ChildPoint) × ChildLoop)
    (steps : ℕ) : Prop :=
  ChildRun.Inv h₀ as ⟨out.2, pointAfter out.1, steps⟩

/-- The invariant at the next point. -/
theorem ChildPoint.Inv.leads {p : ChildPoint} (h : p.Inv h₀ as l steps) :
    Leads h₀ as (.ok (some p), l) steps := by
  refine ⟨h.withinBound (Nat.le_succ steps), fun p' hp' => ?_⟩
  obtain rfl : p = p' := Option.some.inj hp'
  exact h

/-- The bound where the loop has ended. -/
theorem WithinBound.leads {out : Except Halt (Option ChildPoint)} (hout : pointAfter out = none)
    (h : WithinBound h₀ as l.marks steps) : Leads h₀ as (out, l) steps := by
  refine ⟨h, fun p hp => ?_⟩
  rw [show ChildRun.point ⟨l, pointAfter out, steps⟩ = none from hout] at hp
  cases hp

/-- A step on the memory, and what follows. -/
theorem run_onHeap_bind_ok {α β : Type} {m : HeapM α} {x : α} {h' : Heap}
    (h : m.run l.heap = (.ok x, h'))
    (k : α → ChildM β) : (onHeap m >>= k).run l = (k x).run { l with heap := h' } :=
  Eff.run_zoom_bind_ok h k

/-- A step on the memory that fails. -/
theorem run_onHeap_bind_error {α β : Type} {m : HeapM α} {e : Halt} {h' : Heap}
    (h : m.run l.heap = (.error e, h')) (k : α → ChildM β) :
    (onHeap m >>= k).run l = (.error e, { l with heap := h' }) :=
  Eff.run_zoom_bind_error h k

/-- Reading a user that is not there. -/
theorem run_loadUser_of_none {h : Heap} {u : ℕ} (hu : h.structs u = none) :
    (loadUser u).run h = (.error (.fault .outOfBounds), h) := by
  unfold loadUser
  rw [Eff.run_get_bind, hu]
  rfl

/-- The user of the current entry. -/
theorem run_currUser_bind {β : Type} {a u : ℕ} {n : ListUser} (htemp : l.temp = some a)
    (hn : l.heap.nodes a = some n) (husr : n.currUser = some u) (k : ℕ → ChildM β) :
    (currUser >>= k).run l = (k u).run l := by
  unfold currUser
  rw [Eff.bind_assoc, Eff.run_get_bind, htemp, Eff.bind_assoc,
    run_onHeap_bind_ok rfl, Eff.bind_assoc, run_onHeap_bind_ok (run_loadNode hn), husr,
    run_onHeap_bind_ok rfl]

section Points

variable (slack : Slack) (rset : List ℕ) (r : ReadResult) {a u : ℕ} {n : ListUser} {v : UserStruct}
  (htemp : l.temp = some a) (hn : l.heap.nodes a = some n)

include htemp hn

/-- An iteration is begun. -/
theorem run_top : (ChildPoint.top.step slack rset r).run l = (match n.currUser with
      | none => pure (some .advance)
      | some usr => do
          let u ← onHeap (loadUser usr)
          if u.active ∧ (u.rd ∈ rset ∨ u.wrt ∈ rset) then pure (some .reading)
          else pure (some .advance) : ChildM (Option ChildPoint)).run
        { l with marks := l.marks ++ [.visits a] } := by
  obtain ⟨heap, temp, readBuf, marks⟩ := l
  subst htemp
  exact run_onHeap_bind_ok (l := ⟨heap, some a, readBuf, marks ++ [.visits a]⟩) (run_loadNode hn) _

/-- The user's pipe is looked at. -/
theorem run_top_user (husr : n.currUser = some u) (hv : l.heap.structs u = some v) :
    (ChildPoint.top.step slack rset r).run l =
      (.ok (some (if v.active ∧ (v.rd ∈ rset ∨ v.wrt ∈ rset) then .reading else .advance)),
        { l with marks := l.marks ++ [.visits a] }) := by
  rw [run_top slack rset r htemp hn, husr]
  dsimp only
  rw [run_onHeap_bind_ok (l := { l with marks := l.marks ++ [.visits a] }) (run_loadUser hv),
    Eff.run_ite]
  split_ifs <;> rfl

/-- The way to the next entry. -/
theorem run_advance : (ChildPoint.advance.step slack rset r).run l =
    (.ok (some .top), { l with temp := n.next, marks := l.marks ++ [.passes a] }) := by
  unfold ChildPoint.step
  rw [Eff.run_get_bind, htemp, run_onHeap_bind_ok rfl, run_onHeap_bind_ok (run_loadNode hn)]
  rfl

variable (husr : n.currUser = some u) (hv : l.heap.structs u = some v)
include husr hv

/-- The window is closed. -/
theorem run_closed : (ChildPoint.closed.step slack rset r).run l =
    (.ok (some .top), { l with heap := l.heap.setUser u { v with active := false } }) := by
  unfold ChildPoint.step
  rw [run_currUser_bind htemp hn husr, run_onHeap_bind_ok (run_updateUser hv _)]
  rfl

/-- A frame is written, or cannot be built. -/
theorem run_replied : (ChildPoint.replied.step slack rset r).run l =
    match childFrame slack v.username l.readBuf with
    | .error f => (.error (.fault f), l)
    | .ok newStr => (.ok (some .advance), { l with
        heap := { l.heap with wrote := l.heap.wrote ++ [(.stdout, newStr), (.sock, newStr)] }
            }) := by
  unfold ChildPoint.step
  rw [run_currUser_bind htemp hn husr, run_onHeap_bind_ok (run_loadUser hv), Eff.run_get_bind]
  cases childFrame slack v.username l.readBuf <;> rfl

end Points

/-- The entry that `temp` is at. -/
theorem ChildPoint.Inv.exists_node {p : ChildPoint} {a : ℕ} (h : p.Inv h₀ as l steps)
    (htemp : l.temp = some a) : ∃ n todo, h₀.nodes a = some n ∧ as = passedEntries l.marks ++ a ::
    todo ∧
      Listed ListUser.next h₀.nodes n.next todo := by
  obtain ⟨todo, has, hlisted⟩ := h.listed
  rw [htemp] at hlisted
  cases todo with
  | nil => cases hlisted
  | cons a' todo =>
      obtain ⟨heq, n, hn, hrest⟩ := hlisted
      obtain rfl := Option.some.inj heq
      exact ⟨n, todo, hn, has, hrest⟩

section Points

variable (slack : Slack) (rset : List ℕ) (r : ReadResult)

/-- An iteration is begun, with nothing to be read. -/
theorem ChildPoint.Inv.visits (hnodup : as.Nodup) {a : ℕ} (h : ChildPoint.top.Inv h₀ as l steps)
    (htemp : l.temp = some a) :
    ChildPoint.advance.Inv h₀ as { l with marks := l.marks ++ [.visits a] } (steps + 1) := by
  obtain ⟨n, todo, hn, has, hrest⟩ := h.exists_node htemp
  have hnew : a ∉ passedEntries l.marks := by
    rw [has] at hnodup
    intro ha
    exact (List.disjoint_of_nodup_append hnodup) ha List.mem_cons_self
  have haccount : iterations l.marks + (activeUsers l.heap as).card ≤
      (passedEntries l.marks).length + (activeUsers h₀ as).card := h.account
  have hsteps : steps + 0 ≤ 4 * iterations l.marks := h.steps
  refine ⟨h.calmer, ⟨a :: todo, ?_, htemp, n, hn, hrest⟩, h.noReturn.visits hnew, ⟨?_, ?_⟩, ?_⟩
  · rw [passedEntries_append_visits]
    exact has
  · rw [htemp]
    exact Option.some_ne_none a
  · rw [iterations_append_visits, passedEntries_append_visits]
    dsimp only
    omega
  · rw [iterations_append_visits]
    show steps + 1 + 1 ≤ _
    omega

/-- An iteration is begun, with a user that is active. -/
theorem ChildPoint.Inv.visits_active (hnodup : as.Nodup) {a u : ℕ} {n : ListUser} {v : UserStruct}
    (h : ChildPoint.top.Inv h₀ as l steps) (htemp : l.temp = some a) (hn : h₀.nodes a = some n)
    (husr : n.currUser = some u) (hv : l.heap.structs u = some v) (hact : v.active = true) :
    ChildPoint.reading.Inv h₀ as { l with marks := l.marks ++ [.visits a] } (steps + 1) := by
  have hvisited := h.visits hnodup htemp
  obtain ⟨n', todo, hn', has, -⟩ := h.exists_node htemp
  have hmem : u ∈ activeUsers l.heap as := by
    refine mem_activeUsers.mpr ⟨⟨a, by rw [has]; simp, n, ?_, husr⟩, v, hv, hact⟩
    rw [h.calmer.nodes, hn]
  have hcard := Finset.card_erase_add_one hmem
  have haccount := hvisited.account.2
  have hsteps : steps + 0 ≤ 4 * iterations l.marks := h.steps
  refine ⟨hvisited.calmer, hvisited.listed, hvisited.noReturn, ⟨a, n, u, htemp, hn, husr, ?_⟩, ?_⟩
  · dsimp only at haccount ⊢
    omega
  · rw [iterations_append_visits]
    show steps + 1 + 3 ≤ _
    omega

/-- The test of the loop keeps the invariant. -/
theorem leads_top (hnodup : as.Nodup) (h : ChildPoint.top.Inv h₀ as l steps) :
    Leads h₀ as ((ChildPoint.top.step slack rset r).run l) (steps + 1) := by
  cases htemp : l.temp with
  | none =>
      unfold ChildPoint.step
      rw [Eff.run_get_bind, htemp]
      exact (h.withinBound le_rfl).leads rfl
  | some a =>
      have hvisited := h.visits hnodup htemp
      obtain ⟨n, todo, hn, has, -⟩ := h.exists_node htemp
      have hnode : l.heap.nodes a = some n := by rw [h.calmer.nodes, hn]
      cases husr : n.currUser with
      | none =>
          rw [run_top slack rset r htemp hnode, husr]
          exact hvisited.leads
      | some u =>
          cases hv : l.heap.structs u with
          | none =>
              rw [run_top slack rset r htemp hnode, husr]
              dsimp only
              rw [run_onHeap_bind_error (l := { l with marks := l.marks ++ [.visits a] })
                (run_loadUser_of_none hv)]
              exact (hvisited.withinBound (Nat.le_succ _)).leads rfl
          | some v =>
              rw [run_top_user slack rset r htemp hnode husr hv]
              split_ifs with hready
              · exact (h.visits_active hnodup htemp hn husr hv hready.1).leads
              · exact hvisited.leads

/-- Whatever `read` returns. -/
theorem leads_reading (h : ChildPoint.reading.Inv h₀ as l steps) :
    Leads h₀ as ((ChildPoint.reading.step slack rset r).run l) (steps + 1) := by
  have hsteps : steps + 3 ≤ 4 * iterations l.marks := h.steps
  unfold ChildPoint.step
  cases r with
  | eof =>
      have hclosed : ChildPoint.closed.Inv h₀ as l (steps + 1) :=
        ⟨h.calmer, h.listed, h.noReturn, h.account, by show steps + 1 + 1 ≤ _; omega⟩
      exact hclosed.leads
  | failed =>
      have hreplied : ChildPoint.replied.Inv h₀ as l (steps + 1) :=
        ⟨h.calmer, h.listed, h.noReturn, h.account, by show steps + 1 + 2 ≤ _; omega⟩
      exact hreplied.leads
  | data b =>
      dsimp only
      rw [Eff.run_get_bind]
      cases hstore : store l.readBuf 0 (cells b) with
      | error f => exact (h.withinBound le_rfl).leads rfl
      | ok blk =>
          have hreplied : ChildPoint.replied.Inv h₀ as { l with readBuf := blk } (steps + 1) :=
            ⟨h.calmer, h.listed, h.noReturn, h.account, by show steps + 1 + 2 ≤ _; omega⟩
          exact hreplied.leads

/-- The user is made inactive, and settles the account. -/
theorem leads_closed (h : ChildPoint.closed.Inv h₀ as l steps) :
    Leads h₀ as ((ChildPoint.closed.step slack rset r).run l) (steps + 1) := by
  obtain ⟨a, n, u, htemp, hn, husr, haccount⟩ := h.account
  have hnode : l.heap.nodes a = some n := by rw [h.calmer.nodes, hn]
  have hsteps : steps + 1 ≤ 4 * iterations l.marks := h.steps
  cases hv : l.heap.structs u with
  | none =>
      have hrun : (updateUser u fun v => { v with active := false }).run l.heap =
          (.error (.fault .outOfBounds), l.heap) := by
        unfold updateUser
        rw [Eff.run_bind_error (run_loadUser_of_none hv)]
      unfold ChildPoint.step
      rw [run_currUser_bind htemp hnode husr, run_onHeap_bind_error hrun]
      exact (h.withinBound le_rfl).leads rfl
  | some v =>
      rw [run_closed slack rset r htemp hnode husr hv]
      have hset : l.heap.Calmer (l.heap.setUser u { v with active := false }) := .setUser l.heap u v
      have hsub : activeUsers (l.heap.setUser u { v with active := false }) as ⊆
          (activeUsers l.heap as).erase u := by
        intro u' hu'
        refine Finset.mem_erase.mpr ⟨?_, hset.activeUsers_subset as hu'⟩
        rintro rfl
        obtain ⟨-, v', hv', hact⟩ := mem_activeUsers.mp hu'
        rw [structs_setUser_self] at hv'
        obtain rfl := Option.some.inj hv'
        cases hact
      have hcard := Finset.card_le_card hsub
      have htop : ChildPoint.top.Inv h₀ as
          { l with heap := l.heap.setUser u { v with active := false } } (steps + 1) := by
        refine ⟨h.calmer.trans hset, h.listed, h.noReturn, ?_, hsteps⟩
        show iterations l.marks + _ ≤ _
        dsimp only
        omega
      exact htop.leads

/-- The frame is written, and the entry is to be passed. -/
theorem leads_replied (h : ChildPoint.replied.Inv h₀ as l steps) :
    Leads h₀ as ((ChildPoint.replied.step slack rset r).run l) (steps + 1) := by
  obtain ⟨a, n, u, htemp, hn, husr, haccount⟩ := h.account
  have hnode : l.heap.nodes a = some n := by rw [h.calmer.nodes, hn]
  have hsteps : steps + 2 ≤ 4 * iterations l.marks := h.steps
  cases hv : l.heap.structs u with
  | none =>
      unfold ChildPoint.step
      rw [run_currUser_bind htemp hnode husr, run_onHeap_bind_error (run_loadUser_of_none hv)]
      exact (h.withinBound le_rfl).leads rfl
  | some v =>
      rw [run_replied slack rset r htemp hnode husr hv]
      cases hframe : childFrame slack v.username l.readBuf with
      | error f => exact (h.withinBound le_rfl).leads rfl
      | ok newStr =>
          have hcard := Finset.pred_card_le_card_erase (s := activeUsers l.heap as) (a := u)
          have hadvance : ChildPoint.advance.Inv h₀ as
              { l with heap := { l.heap with
                wrote := l.heap.wrote ++ [(.stdout, newStr), (.sock, newStr)] } } (steps + 1) := by
            refine ⟨h.calmer.trans ⟨rfl, fun _ v' hv' hact => ⟨v', hv', hact⟩⟩,
              h.listed, h.noReturn, ⟨?_, ?_⟩, hsteps⟩
            · rw [htemp]
              exact Option.some_ne_none a
            · show iterations l.marks + (activeUsers l.heap as).card ≤ _
              dsimp only
              omega
          exact hadvance.leads

/-- The entry is passed, and settles the account. -/
theorem leads_advance (h : ChildPoint.advance.Inv h₀ as l steps) :
    Leads h₀ as ((ChildPoint.advance.step slack rset r).run l) (steps + 1) := by
  obtain ⟨htemp, haccount⟩ := h.account
  obtain ⟨a, htemp⟩ := Option.ne_none_iff_exists'.mp htemp
  obtain ⟨n, todo, hn, has, hrest⟩ := h.exists_node htemp
  have hnode : l.heap.nodes a = some n := by rw [h.calmer.nodes, hn]
  have hsteps : steps + 1 ≤ 4 * iterations l.marks := h.steps
  rw [run_advance slack rset r htemp hnode]
  have htop : ChildPoint.top.Inv h₀ as
      { l with temp := n.next, marks := l.marks ++ [.passes a] } (steps + 1) := by
    refine ⟨h.calmer, ⟨todo, ?_, hrest⟩, h.noReturn.passes a, ?_, ?_⟩
    · rw [passedEntries_append_passes, List.append_assoc]
      exact has
    · show iterations (l.marks ++ [.passes a]) +
        _ ≤ (passedEntries (l.marks ++ [.passes a])).length + _
      rw [iterations_append_passes, passedEntries_append_passes, List.length_append]
      exact haccount
    · rw [iterations_append_passes]
      exact hsteps
  exact htop.leads

end Points

/-- The handler leaves the account in order: the users that it makes inactive are ones fewer. -/
theorem ChildPoint.Inv.handled {p : ChildPoint} (h : p.Inv h₀ as l steps) {h' : Heap}
    (hcalmer : l.heap.Calmer h') : p.Inv h₀ as { l with heap := h' } steps := by
  have hsub := hcalmer.activeUsers_subset as
  have hcard := Finset.card_le_card hsub
  refine ⟨h.calmer.trans hcalmer, h.listed, h.noReturn, ?_, h.steps⟩
  have haccount := h.account
  cases p with
  | top => exact (Nat.add_le_add_left hcard _).trans haccount
  | advance => exact ⟨haccount.1, (Nat.add_le_add_left hcard _).trans haccount.2⟩
  | reading | closed | replied =>
      obtain ⟨a, n, u, htemp, hn, husr, hle⟩ := haccount
      have herase := Finset.card_le_card (Finset.erase_subset_erase u hsub)
      exact ⟨a, n, u, htemp, hn, husr, (Nat.add_le_add_left herase _).trans hle⟩

end Step

namespace ChildRun

variable {slack : Slack} {rset : List ℕ} {h₀ : Heap} {as : List ℕ}

/-- The invariant holds at the start. -/
theorem Starts.inv {s : ChildRun} (h : s.Starts as) : s.Inv s.loop.heap as := by
  have htop : ChildPoint.top.Inv s.loop.heap as s.loop s.steps := by
    refine ⟨.refl _, ⟨as, ?_, ?_⟩, ?_, ?_, ?_⟩
    · rw [h.marks]
      rfl
    · rw [h.temp]
      exact h.listed
    · rw [h.marks]
      exact List.Pairwise.nil
    · show iterations s.loop.marks + _ ≤ _
      rw [h.marks]
      exact Nat.le_refl _
    · rw [h.steps]
      exact Nat.zero_le _
  refine ⟨htop.withinBound (Nat.le_succ _), fun p hp => ?_⟩
  rw [h.point] at hp
  obtain rfl := Option.some.inj hp
  exact htop

/-- One step. -/
theorem Inv.step (hnodup : as.Nodup) {s s' : ChildRun} {e : ChildEvent} (h : s.Inv h₀ as)
    (hst : s.Step slack rset e s') : s'.Inv h₀ as := by
  cases e with
  | goesOn r =>
      obtain ⟨p, hp, rfl⟩ := hst
      have hpoint := h.point p hp
      cases p with
      | top => exact leads_top slack rset r hnodup hpoint
      | reading => exact leads_reading slack rset r hpoint
      | closed => exact leads_closed slack rset r hpoint
      | replied => exact leads_replied slack rset r hpoint
      | advance => exact leads_advance slack rset r hpoint
  | handles pid =>
      obtain ⟨p, out, h', hp, hset, rfl⟩ := hst
      refine ⟨h.bound, fun p' hp' => ?_⟩
      obtain rfl : p = p' := by
        dsimp only at hp'
        split_ifs at hp'
        exact Option.some.inj hp'
      exact (h.point p hp).handled (.sigchild hset)

/-- A run. -/
theorem ReachedFrom.inv {s₀ s : ChildRun} (hstart : s₀.Starts as)
    (hs : s₀.ReachedFrom slack rset s) :
    s.Inv s₀.loop.heap as := by
  refine Reaches.invariant ?_ (fun _ _ _ h _ hst => h.step hstart.listed.nodup hst) hs
  rintro _ rfl
  exact hstart.inv

/-- The loop goes on. -/
theorem ReachedFrom.goesOn {s₀ s : ChildRun} (hs : s₀.ReachedFrom slack rset s) {p : ChildPoint}
    (hp : s.point = some p) (r : ReadResult) : s₀.ReachedFrom slack rset
      ⟨((p.step slack rset r).run s.loop).2, pointAfter ((p.step slack rset r).run s.loop).1,
        s.steps + 1⟩ :=
  Reachable.next hs (e := .goesOn r) ⟨p, hp, rfl⟩

/-- **The loop ends**: whatever the reads return and whenever the handler runs, there are not more
iterations than entries and active users at the start, and not more than four steps for each; until
it has ended, the loop can go on, whatever a `read` returns; and no entry is visited again that was
passed. -/
theorem terminates {s₀ s : ChildRun} (hstart : s₀.Starts as) (hs : s₀.ReachedFrom slack rset s) :
    iterations s.loop.marks ≤ as.length + (activeUsers s₀.loop.heap as).card ∧
      s.steps ≤ 4 * (as.length + (activeUsers s₀.loop.heap as).card) + 1 ∧
      (∀ p r, s.point = some p → ∃ s', s.Step slack rset (.goesOn r) s' ∧ s'.steps = s.steps + 1) ∧
      NoReturn s.loop.marks := by
  have hbound := (ReachedFrom.inv hstart hs).bound
  exact ⟨hbound.iterations, hbound.steps, fun p r hp => ⟨_, ⟨p, hp, rfl⟩, rfl⟩, hbound.noReturn⟩

/-- One window, at the start of the loop. -/
private def oneWindow : ChildRun where
  loop :=
    { heap :=
        { structs := fun u => if u = 1 then some ⟨[97], 0, 0, 4, 5, true⟩ else none
          nodes := fun a => if a = 0 then some ⟨some 1, 7, none, none⟩ else none
          userListHead := some 0
          userListTail := some 0
          wrote := [] }
      temp := some 0
      readBuf := []
      marks := [] }
  point := some .top
  steps := 0

/-- The window is closed: its entry is visited a second time. -/
theorem terminates_closed :
    ∃ s, oneWindow.ReachedFrom (fun _ => 1) [4] s ∧ s.loop.marks = [.visits 0, .visits 0] ∧
    iterations s.loop.marks ≤ [0].length + (activeUsers oneWindow.loop.heap [0]).card ∧
      s.steps ≤ 4 * ([0].length + (activeUsers oneWindow.loop.heap [0]).card) + 1 ∧
      (∀ p r, s.point = some p → ∃ s', s.Step (fun _ => 1) [4] (.goesOn r) s' ∧
        s'.steps = s.steps + 1) ∧
      NoReturn s.loop.marks := by
  have hstart : oneWindow.Starts [0] := ⟨⟨rfl, _, rfl, rfl⟩, rfl, rfl, rfl, rfl⟩
  have hs : oneWindow.ReachedFrom (fun _ => 1) [4] oneWindow := .start rfl
  have hclosed := (hs.goesOn rfl .eof).goesOn rfl .eof
  have hagain := (hclosed.goesOn rfl .eof).goesOn rfl .eof
  exact ⟨_, hagain, rfl, terminates hstart hagain⟩

/-! ## The list of users -/

/-- With what was read in `read_buf`, the frame is sent. -/
theorem childReplied_bind {β : Type} {slack : Slack} {i : ℕ} {u : UserStruct}
    {blk blk' : Block} {r : ReadResult}
    (hr : r = .failed ∧ blk' = blk ∨ ∃ b, r = .data b ∧ store blk 0 (cells b) = .ok blk')
    (k : Block → Chat β) : childReplied slack i u blk r >>= k = (do
      let newStr ← mem (childFrame slack u.username blk')
      write .stdout newStr
      write .sock newStr
      k blk') := by
  have hsend : childReplied slack i u blk r = (do
      let newStr ← mem (childFrame slack u.username blk')
      write .stdout newStr
      write .sock newStr
      pure blk') := by
    rcases hr with ⟨rfl, rfl⟩ | ⟨b, rfl, hstore⟩
    · rfl
    · unfold childReplied
      dsimp only
      rw [hstore]
      rfl
  rw [hsend]
  cases childFrame slack u.username blk' <;> rfl

/-- A step of the loop, in which a `read` returns what `pipe` has for its descriptor. -/
def Reads (pipe : ℕ → ReadResult) (s : ChildRun) : ChildEvent → Prop
  | .goesOn r => s.point = some .reading → ∀ a v, s.loop.temp = some a →
    s.loop.heap.userAt a = some v →
      r = pipe v.rd
  | .handles _ => False

/-- The states that the loop gets to when the handler does not run. -/
abbrev Undisturbed (slack : Slack) (rset : List ℕ) (pipe : ℕ → ReadResult) (s₀ : ChildRun) :
    ChildRun → Prop :=
  Reaches (· = s₀) (Reads pipe) (Step slack rset)

section Represents

variable {pipe : ℕ → ReadResult} {s₀ s : ChildRun} {pids : List ℕ}
    {pre post : List Entry} {e : Entry}
  {c : Process}

/-- The loop takes a step. -/
theorem Undisturbed.next (hs : s₀.Undisturbed slack rset pipe s) {p : ChildPoint}
    (hp : s.point = some p)
    {r : ReadResult} (hread : s.Reads pipe (.goesOn r)) {out : Except Halt (Option ChildPoint)}
    {l' : ChildLoop} (hrun : (p.step slack rset r).run s.loop = (out, l')) :
    s₀.Undisturbed slack rset pipe ⟨l', pointAfter out, s.steps + 1⟩ := by
  refine .step hs hread ⟨p, hp, ?_⟩
  rw [hrun]

/-- Other than at a `read`, it does not matter what one returns. -/
theorem reads_of_ne {p : ChildPoint} (hp : s.point = some p) (hne : p ≠ .reading) (r : ReadResult) :
    s.Reads pipe (.goesOn r) := by
  intro hreading
  exact absurd (Option.some.inj (hp.symm.trans hreading)) hne

/-- The loop begins an iteration. -/
theorem Undisturbed.visits (hs : s₀.Undisturbed slack rset pipe s) (hp : s.point = some .top)
    (htemp : s.loop.temp = some e.node) (hr : s.loop.heap.Represents (pre ++ e :: post) c pids) :
    s₀.Undisturbed slack rset pipe ⟨{ s.loop with marks := s.loop.marks ++ [.visits e.node] },
      some (if e.user.active ∧ (e.user.rd ∈ rset ∨ e.user.wrt ∈ rset) then .reading else .advance),
      s.steps + 1⟩ := by
  obtain ⟨-, hv, n, hn, husr, -⟩ := hr.entry
  exact hs.next hp (reads_of_ne hp (by decide) .failed) (run_top_user slack rset _ htemp hn husr hv)

/-- A `read` returns what the user's pipe has. -/
theorem Undisturbed.read (hs : s₀.Undisturbed slack rset pipe s) (hp : s.point = some .reading)
    (htemp : s.loop.temp = some e.node) (hr : s.loop.heap.Represents (pre ++ e :: post) c pids)
    {out : Except Halt (Option ChildPoint)} {l' : ChildLoop}
    (hrun : (ChildPoint.reading.step slack rset (pipe e.user.rd)).run s.loop = (out, l')) :
    s₀.Undisturbed slack rset pipe ⟨l', pointAfter out, s.steps + 1⟩ := by
  obtain ⟨-, hv, n, hn, husr, -⟩ := hr.entry
  have hat : s.loop.heap.userAt e.node = some e.user := by
    unfold Heap.userAt
    rw [hn, Option.bind_some, husr, Option.bind_some, hv]
  refine hs.next hp (fun _ a v ha hv' => ?_) hrun
  obtain rfl : e.node = a := Option.some.inj (htemp.symm.trans ha)
  obtain rfl : e.user = v := Option.some.inj (hat.symm.trans hv')
  rfl

/-- From the entries `post` on, the loop ends as the function on the list of users does. -/
def Follows (slack : Slack) (rset : List ℕ) (pipe : ℕ → ReadResult) (s₀ : ChildRun) (pids : List ℕ)
    (post : List Entry) : Prop :=
  ∀ (pre : List Entry) (c : Process) (s : ChildRun), s₀.Undisturbed slack rset pipe s →
    s.point = some .top →
    s.loop.temp = (post.map Entry.node).head? → s.loop.heap.Represents (pre ++ post) c pids →
    ∃ s' es', s₀.Undisturbed slack rset pipe s' ∧ s'.point = none ∧ s'.loop.heap.Represents es'
      ((anyChildrenReplied slack rset pipe (List.range' pre.length post.length) s.loop.readBuf).run
        c).2 pids

/-- Behind the last entry the loop has ended. -/
theorem follows_nil : Follows slack rset pipe s₀ pids [] := by
  intro pre c s hs hp htemp hr
  have hrun : (ChildPoint.top.step slack rset .failed).run s.loop = (.ok none, s.loop) := by
    unfold ChildPoint.step
    rw [Eff.run_get_bind, htemp]
    rfl
  exact ⟨_, _, hs.next hp (reads_of_ne hp (by decide) _) hrun, rfl, hr⟩

/-- An entry is passed. -/
theorem Follows.passes (h : Follows slack rset pipe s₀ pids post)
    (hs : s₀.Undisturbed slack rset pipe s)
    (hp : s.point = some .advance) (htemp : s.loop.temp = some e.node)
    (hr : s.loop.heap.Represents (pre ++ e :: post) c pids) :
    ∃ s' es', s₀.Undisturbed slack rset pipe s' ∧ s'.point = none ∧ s'.loop.heap.Represents es'
      ((anyChildrenReplied slack rset pipe (List.range' (pre.length + 1) post.length)
        s.loop.readBuf).run c).2 pids := by
  obtain ⟨-, -, n, hn, -, hnext⟩ := hr.entry
  have hpassed :=
    hs.next hp (reads_of_ne hp (by decide) .failed) (run_advance slack rset _ htemp hn)
  have hsplit : pre ++ e :: post = (pre ++ [e]) ++ post := by simp
  have hrest := h (pre ++ [e]) c _ hpassed rfl hnext (hsplit ▸ hr)
  rwa [List.length_append, List.length_singleton] at hrest

/-- What was read is sent. -/
theorem Follows.replies (h : Follows slack rset pipe s₀ pids post)
    (hs : s₀.Undisturbed slack rset pipe s)
    (hp : s.point = some .replied) (htemp : s.loop.temp = some e.node)
    (hr : s.loop.heap.Represents (pre ++ e :: post) c pids) :
    ∃ s' es', s₀.Undisturbed slack rset pipe s' ∧ s'.point = none ∧ s'.loop.heap.Represents es'
      ((do
        let newStr ← mem (childFrame slack e.user.username s.loop.readBuf)
        write .stdout newStr
        write .sock newStr
        anyChildrenReplied slack rset pipe (List.range' (pre.length + 1) post.length)
          s.loop.readBuf).run c).2 pids := by
  obtain ⟨-, hv, n, hn, husr, -⟩ := hr.entry
  have hrun := run_replied slack rset .failed htemp hn husr hv
  cases hframe : childFrame slack e.user.username s.loop.readBuf with
  | error f =>
      rw [hframe] at hrun
      exact ⟨_, _, hs.next hp (reads_of_ne hp (by decide) _) hrun, rfl, hr⟩
  | ok newStr =>
      rw [hframe] at hrun
      have hsent := hs.next hp (reads_of_ne hp (by decide) _) hrun
      have hwrote : s.loop.heap.wrote ++ [(.stdout, newStr), (.sock, newStr)] =
          c.wrote ++ [(.stdout, newStr)] ++ [(.sock, newStr)] := by
        rw [hr.wrote, List.append_assoc]
        rfl
      have hrest :=
        h.passes (c := { c with wrote := c.wrote ++ [(.stdout, newStr)] ++ [(.sock, newStr)] })
        hsent rfl htemp ⟨hr.holds.withWrote _, hr.users, hr.pids, hwrote⟩
      rw [run_mem_ok_bind, run_write_bind, run_write_bind]
      exact hrest

/-- The window is closed. Its entry is visited again, and has nothing to be read now. -/
theorem Follows.closes (h : Follows slack rset pipe s₀ pids post)
    (hs : s₀.Undisturbed slack rset pipe s)
    (hp : s.point = some .closed) (htemp : s.loop.temp = some e.node)
    (hr : s.loop.heap.Represents (pre ++ e :: post) c pids) :
    ∃ s' es', s₀.Undisturbed slack rset pipe s' ∧ s'.point = none ∧ s'.loop.heap.Represents es'
      ((anyChildrenReplied slack rset pipe (List.range' (pre.length + 1) post.length)
        s.loop.readBuf).run (deactivate pre.length c)).2 pids := by
  obtain ⟨-, hv, n, hn, husr, -⟩ := hr.entry
  let e' : Entry := { e with user := { e.user with active := false } }
  have hcleared :=
    hs.next hp (reads_of_ne hp (by decide) .failed) (run_closed slack rset _ htemp hn husr hv)
  have hagain := hcleared.visits (e := e') rfl htemp hr.deactivate
  rw [if_neg (by simp [e'])] at hagain
  have hrest := h.passes (e := e') hagain rfl htemp hr.deactivate
  exact hrest

/-- A window with something to be read, or closed. -/
theorem Follows.reads (h : Follows slack rset pipe s₀ pids post)
    (hs : s₀.Undisturbed slack rset pipe s)
    (hp : s.point = some .reading) (htemp : s.loop.temp = some e.node)
    (hr : s.loop.heap.Represents (pre ++ e :: post) c pids) :
    ∃ s' es', s₀.Undisturbed slack rset pipe s' ∧ s'.point = none ∧ s'.loop.heap.Represents es'
      ((do
        let blk ← childReplied slack pre.length e.user s.loop.readBuf (pipe e.user.rd)
        anyChildrenReplied slack rset pipe (List.range' (pre.length + 1) post.length)
          blk).run c).2 pids := by
  cases hpipe : pipe e.user.rd with
  | eof =>
      have hrun : (ChildPoint.reading.step slack rset (pipe e.user.rd)).run s.loop =
          (.ok (some .closed), s.loop) := by
        rw [hpipe]
        rfl
      have hclosed := hs.read hp htemp hr hrun
      have hrest := h.closes hclosed rfl htemp hr
      exact hrest
  | failed =>
      have hrun : (ChildPoint.reading.step slack rset (pipe e.user.rd)).run s.loop =
          (.ok (some .replied), s.loop) := by
        rw [hpipe]
        rfl
      have hreplied := hs.read hp htemp hr hrun
      rw [childReplied_bind (.inl ⟨rfl, rfl⟩)]
      have hrest := h.replies hreplied rfl htemp hr
      exact hrest
  | data b =>
      have hrun : (ChildPoint.reading.step slack rset (.data b)).run s.loop =
          match store s.loop.readBuf 0 (cells b) with
          | .error f => (.error (.fault f), s.loop)
          | .ok blk => (.ok (some .replied), { s.loop with readBuf := blk }) := by
        unfold ChildPoint.step
        dsimp only
        rw [Eff.run_get_bind]
        cases store s.loop.readBuf 0 (cells b) <;> rfl
      rw [← hpipe] at hrun
      cases hstore : store s.loop.readBuf 0 (cells b) with
      | error f =>
          rw [hstore] at hrun
          have hlist : (childReplied slack pre.length e.user s.loop.readBuf (.data b)).run c =
              (.error (.fault f), c) := by
            unfold childReplied
            dsimp only
            rw [hstore]
            rfl
          rw [Eff.run_bind_error hlist]
          exact ⟨_, _, hs.read hp htemp hr hrun, rfl, hr⟩
      | ok blk =>
          rw [hstore] at hrun
          have hreplied := hs.read hp htemp hr hrun
          rw [childReplied_bind (.inr ⟨b, rfl, hstore⟩)]
          have hrest := h.replies hreplied rfl htemp hr
          exact hrest

/-- One entry more. -/
theorem Follows.cons (h : Follows slack rset pipe s₀ pids post) :
    Follows slack rset pipe s₀ pids (e :: post) := by
  intro pre c s hs hp htemp hr
  have huser := hr.entry.1
  have hvisited := hs.visits hp htemp hr
  unfold anyChildrenReplied
  rw [List.length_cons, List.range'_succ]
  dsimp only
  rw [Eff.run_get_bind, huser]
  dsimp only
  by_cases hready : e.user.active ∧ (e.user.rd ∈ rset ∨ e.user.wrt ∈ rset)
  · rw [if_pos hready] at hvisited ⊢
    have hrest := h.reads hvisited rfl htemp hr
    exact hrest
  · rw [if_neg hready] at hvisited ⊢
    have hrest := h.passes hvisited rfl htemp hr
    exact hrest

/-- The loop on the memory follows the one over the users. -/
theorem follows (s₀ : ChildRun) (pids : List ℕ) (post : List Entry) :
    Follows slack rset pipe s₀ pids post := by
  induction post with
  | nil => exact follows_nil
  | cons e post ih => exact ih.cons

/-- **The loop on addresses** does what it does on the list of users, where the handler does not
run. -/
theorem represents {es : List Entry} (hr : s.loop.heap.Represents es c pids)
    (hstart : s.Starts (es.map Entry.node)) (slack : Slack) (rset : List ℕ)
    (pipe : ℕ → ReadResult) :
    ∃ s' es', s.Undisturbed slack rset pipe s' ∧ s'.point = none ∧ s'.loop.heap.Represents es'
      ((anyChildrenReplied slack rset pipe (List.range c.users.length) s.loop.readBuf).run c).2
      pids := by
  have hlength : es.length = c.users.length := by rw [← hr.users, List.length_map]
  rw [List.range_eq_range', ← hlength]
  refine follows s pids es [] c s (.start rfl) hstart.point ?_ hr
  rw [hstart.temp]
  exact hr.holds.linked.head

end Represents

end ChildRun

end ME2U.Client
