import ME2U.Found.Runs
import ME2U.Client.UserList

/-!
# A signal in the middle of `create_new_user`

`sigchild_handler` runs when a window has exited, wherever the client is. It looks for the entry
with the id of the window; but `create_new_user` stores the id last, and an id may come again when
the window that had it is gone.

* `SignalRun.Step`: the steps of `create_new_user`, windows that exit and the handler, in any order.
* `SignalRun.Holds.step`: what holds at every point.
* `SignalRun.clears_iff`: the handler is right iff the entry of the window is the first with its id.
-/

namespace ME2U.Client

open Heap

/-! ## The steps of `create_new_user` -/

/-- The points between the steps.
Source: `client.c` `create_new_user` (lines 487–512) -/
inductive Point
  | linked
  | piped
  | forked
  | rdStored
  | wrtStored
  | activeStored
  deriving DecidableEq

/-- The step that is taken at a point; `pipe` and `fork` write nothing to the list. -/
def Point.step (s : Started) : Point → HeapM Unit
  | .linked => pure ()
  | .piped => pure ()
  | .forked => updateUser s.usr fun u => { u with rd := s.rd }
  | .rdStored => updateUser s.usr fun u => { u with wrt := s.wrt }
  | .wrtStored => updateUser s.usr fun u => { u with active := true }
  | .activeStored => updateNode s.node fun n => { n with pid := s.childpid }

/-- The point behind it. -/
def Point.next : Point → Option Point
  | .linked => some .piped
  | .piped => some .forked
  | .forked => some .rdStored
  | .rdStored => some .wrtStored
  | .wrtStored => some .activeStored
  | .activeStored => none

/-- The steps that are left at a point. -/
def Point.rest (s : Started) : Point → HeapM Unit
  | .activeStored => Point.activeStored.step s
  | .wrtStored => do
      Point.wrtStored.step s
      Point.activeStored.step s
  | .rdStored => do
      Point.rdStored.step s
      Point.wrtStored.step s
      Point.activeStored.step s
  | _ => do
      Point.forked.step s
      Point.rdStored.step s
      Point.wrtStored.step s
      Point.activeStored.step s

/-- `create_new_user` links the user in, and takes the steps that are left. -/
theorem createNewUser_eq (s : Started) (name : Bytes) : Heap.createNewUser s name = (do
    linkUser s name
    Point.linked.rest s
    pure s.usr) := by
  unfold Heap.createNewUser Point.rest
  simp only [Eff.bind_assoc]
  rfl

/-! ## Runs -/

/-- The process of a window. -/
structure WindowProcess where
  pid : ℕ
  /-- The address of its user. -/
  usr : ℕ
  /-- The address of the entry of its user. -/
  node : ℕ
  exited : Bool
  /-- Whether `waitpid` has returned it. -/
  reaped : Bool
  deriving DecidableEq

/-- A client in the middle of whatever it does. -/
structure SignalRun where
  heap : Heap
  /-- The call of `create_new_user` that is under way, and its point. -/
  creating : Option (Started × Point)
  procs : List WindowProcess

/-- What happens in a run. -/
inductive SignalEvent
  /-- `create_new_user` links a user in. -/
  | links (s : Started) (name : Bytes)
  /-- `create_new_user` takes its next step. -/
  | goesOn
  /-- A window exits. -/
  | exits (z : WindowProcess)
  /-- The handler runs for a window. -/
  | handles (z : WindowProcess)

/-- The steps of a run. A new process has an id that none has which `waitpid` has not returned. -/
def SignalRun.Step (r : SignalRun) : SignalEvent → SignalRun → Prop
  | .links s name, r' =>
      r.creating = none ∧ s.Fresh r.heap ∧ Eff.Settles (Heap.findUser name)
        r.heap (.ok none, r.heap) ∧
        (linkUser s name).run r.heap = (.ok (), r'.heap) ∧ r'.creating = some (s, .linked) ∧
        r'.procs = r.procs
  | .goesOn, r' => ∃ s pt, r.creating = some (s, pt) ∧
      (pt.step s).run r.heap = (.ok (), r'.heap) ∧ r'.creating = pt.next.map (s, ·) ∧
      if pt = .piped then
        s.childpid ≠ 0 ∧ (∀ z ∈ r.procs, z.reaped = false → z.pid ≠ s.childpid) ∧
          r'.procs = r.procs ++ [⟨s.childpid, s.usr, s.node, false, false⟩]
      else r'.procs = r.procs
  | .exits z, r' =>
      z ∈ r.procs ∧ r'.heap = r.heap ∧ r'.creating = r.creating ∧
        r'.procs = r.procs.map fun z' => if z' = z then { z' with exited := true } else z'
  | .handles z, r' =>
      z ∈ r.procs ∧ z.exited = true ∧ z.reaped = false ∧
        Eff.Settles (Heap.sigchild z.pid) r.heap (.ok (), r'.heap) ∧ r'.creating = r.creating ∧
        r'.procs = r.procs.map fun z' => if z' = z then { z' with reaped := true } else z'

/-- The start, without users. -/
def SignalRun.Initial (r : SignalRun) : Prop :=
  r.heap.userListHead = none ∧ r.heap.userListTail = none ∧ r.creating = none ∧ r.procs = []

/-- The states that the runs reach. -/
abbrev SignalRun.Reached : SignalRun → Prop := Reachable SignalRun.Initial SignalRun.Step

/-- What `create_new_user` has left to do. -/
def SignalRun.rest (r : SignalRun) : HeapM Unit :=
  match r.creating with
  | none => pure ()
  | some (s, pt) => pt.rest s

/-- **The handler is right** about a window: it follows no null pointer, changes no flag but that of
the user of the window, and this one is cleared, also when `create_new_user` is through. -/
def SignalRun.Clears (r : SignalRun) (z : WindowProcess) : Prop :=
  ∃ h' h'' u, Eff.Settles (Heap.sigchild z.pid) r.heap (.ok (), h') ∧
    (∀ a, a ≠ z.usr →
      (h'.structs a).map UserStruct.active = (r.heap.structs a).map UserStruct.active) ∧
    r.rest.run h' = (.ok (), h'') ∧ h''.structs z.usr = some u ∧ u.active = false

/-- The id in the entry at an address. -/
def Heap.pidAt (h : Heap) (a : ℕ) : Option ℕ := (h.nodes a).map ListUser.pid

/-- The id of a window is stored in its entry, and no entry in front of it has the same. -/
def SignalRun.FoundFirst (r : SignalRun) (z : WindowProcess) : Prop :=
  ∃ before after, Linked ListUser.next ListUser.prev r.heap.nodes none r.heap.userListHead
      (before ++ z.node :: after) ∧
    r.heap.pidAt z.node = some z.pid ∧ ∀ a ∈ before, r.heap.pidAt a ≠ some z.pid

/-! ## Finding the entry -/

section Found

variable {r : SignalRun} {es : List Entry} (hh : r.heap.Holds es) {z : WindowProcess}
include hh

/-- The process id of an entry is at its node. -/
theorem pidAt_node {e : Entry} (he : e ∈ es) : r.heap.pidAt e.node = some e.pid := by
  obtain ⟨n, hn, -, hpid⟩ := hh.nodes e he
  unfold Heap.pidAt
  rw [hn, ← hpid]
  rfl

/-- The loop of the handler gets to the entry of the window. -/
theorem foundFirst_iff : r.FoundFirst z ↔
    ∃ e, es.find? (·.pid == z.pid) = some e ∧ e.node = z.node := by
  constructor
  · rintro ⟨before, after, hlinked, hpid, hbefore⟩
    have hnodes := hlinked.listed.unique hh.linked.listed
    obtain ⟨es₁, rest, rfl, hes₁, hrest⟩ := List.map_eq_append_iff.mp hnodes.symm
    obtain ⟨e, es₂, rfl, hnode, -⟩ := List.map_eq_cons_iff.mp hrest
    have he := pidAt_node hh (List.mem_append_right es₁ (List.mem_cons_self (a := e)))
    rw [hnode, hpid] at he
    refine ⟨e, List.find?_eq_some_iff_append.mpr ⟨?_, es₁, es₂, rfl, ?_⟩, hnode⟩
    · simpa using (Option.some.inj he).symm
    · intro e' he'
      have hne := hbefore e'.node (hes₁ ▸ List.mem_map_of_mem he')
      rw [pidAt_node hh (List.mem_append_left _ he')] at hne
      simpa using hne
  · rintro ⟨e, hfind, hnode⟩
    obtain ⟨hpid, es₁, es₂, rfl, hbefore⟩ := List.find?_eq_some_iff_append.mp hfind
    refine ⟨es₁.map Entry.node, es₂.map Entry.node, ?_, ?_, ?_⟩
    · rw [← hnode]
      simpa using hh.linked
    · rw [← hnode, pidAt_node hh (List.mem_append_right _ (List.mem_cons_self ..))]
      simpa using hpid
    · intro a ha
      obtain ⟨e', he', rfl⟩ := List.mem_map.mp ha
      rw [pidAt_node hh (List.mem_append_left _ he')]
      simpa using hbefore e' he'

end Found

/-! ## The steps that are left -/

section Rest

variable {h : Heap} {es₀ : List Entry} {s : Started} {u : UserStruct}

/-- A step that writes the user. -/
theorem run_updateLast (hh : h.Holds (es₀ ++ [⟨s.node, s.usr, u, 0⟩]))
    (f : UserStruct → UserStruct) :
    (updateUser s.usr f).run h = (.ok (), h.setUser s.usr (f u)) ∧
      (h.setUser s.usr (f u)).Holds (es₀ ++ [⟨s.node, s.usr, f u, 0⟩]) :=
  ⟨run_updateUser (hh.structs _ (List.mem_append_right _ (List.mem_singleton_self _))) f,
    hh.setEntryUser (f u)⟩

/-- The last step stores the id. -/
theorem run_storePid (hh : h.Holds (es₀ ++ [⟨s.node, s.usr, u, 0⟩])) : ∃ h',
    (Point.activeStored.rest s).run h = (.ok (), h') ∧
      h'.Holds (es₀ ++ [⟨s.node, s.usr, u, s.childpid⟩]) := by
  obtain ⟨n, hn, -, -⟩ := hh.nodes _ (List.mem_append_right _ (List.mem_singleton_self _))
  exact ⟨_, run_updateNode hn _, hh.setLastPid hn s.childpid⟩

/-- What goes through and leaves the user that is being created active. -/
def LeavesActive (s : Started) (es₀ : List Entry) (m : HeapM Unit) : Prop :=
  ∀ h u, h.Holds (es₀ ++ [⟨s.node, s.usr, u, 0⟩]) → ∃ h' u', m.run h = (.ok (), h') ∧
    h'.Holds (es₀ ++ [⟨s.node, s.usr, u', s.childpid⟩]) ∧ u'.active = true

/-- A step in front of it that writes the user. -/
theorem LeavesActive.update {m : HeapM Unit} (hm : LeavesActive s es₀ m)
    (f : UserStruct → UserStruct) :
    LeavesActive s es₀ (do
      updateUser s.usr f
      m) := by
  intro h u hh
  obtain ⟨hrun, hh'⟩ := run_updateLast hh f
  obtain ⟨h', u', hrun', hh'', hactive⟩ := hm _ _ hh'
  exact ⟨h', u', (Eff.run_bind_ok hrun _).trans hrun', hh'', hactive⟩

/-- Behind the store of `wrt` the rest marks the user active. -/
theorem leavesActive_wrtStored : LeavesActive s es₀ (Point.wrtStored.rest s) := by
  intro h u hh
  obtain ⟨hrun, hh'⟩ := run_updateLast hh fun u => { u with active := true }
  obtain ⟨h', hrun', hh''⟩ := run_storePid hh'
  exact ⟨h', _, (Eff.run_bind_ok hrun _).trans hrun', hh'', rfl⟩

/-- **What is left of `create_new_user`** leaves the user active, wherever it is; once that is
stored, it leaves the user as it is. -/
theorem run_rest (hh : h.Holds (es₀ ++ [⟨s.node, s.usr, u, 0⟩])) (pt : Point) : ∃ h' u',
    (pt.rest s).run h = (.ok (), h') ∧ h'.Holds (es₀ ++ [⟨s.node, s.usr, u', s.childpid⟩]) ∧
      if pt = .activeStored then u' = u else u'.active = true := by
  have hwrt : LeavesActive s es₀ (Point.rdStored.rest s) := leavesActive_wrtStored.update _
  have hrd : LeavesActive s es₀ (Point.forked.rest s) := hwrt.update _
  cases pt with
  | linked => exact hrd h u hh
  | piped => exact hrd h u hh
  | forked => exact hrd h u hh
  | rdStored => exact hwrt h u hh
  | wrtStored => exact leavesActive_wrtStored h u hh
  | activeStored =>
      obtain ⟨h', hrun, hh'⟩ := run_storePid hh
      exact ⟨h', u, hrun, hh', rfl⟩

end Rest

/-! ## The invariant -/

/-- What holds at every point of a run. -/
structure SignalRun.Holds (r : SignalRun) (es : List Entry) : Prop where
  heap : r.heap.Holds es
  /-- The entry of a window has its id, unless the id is still to be stored. -/
  owned : ∀ z ∈ r.procs, ∃ e ∈ es, e.node = z.node ∧ e.usr = z.usr ∧
    (e.pid = z.pid ∨ ∃ s pt, r.creating = some (s, pt) ∧ s.usr = z.usr ∧ s.childpid = z.pid)
  nonzero : ∀ z ∈ r.procs, z.pid ≠ 0
  distinct : ∀ z ∈ r.procs, ∀ z' ∈ r.procs, z.reaped = false → z'.reaped = false → z.pid = z'.pid →
    z = z'
  /-- The user of a window that `waitpid` has not returned is active, once that is stored. -/
  active : ∀ z ∈ r.procs, z.reaped = false →
    (∀ s pt, r.creating = some (s, pt) → s.usr = z.usr → pt = .activeStored) →
      ∀ e ∈ es, e.usr = z.usr → e.user.active = true
  /-- The user that is being created is the last, and has no id. -/
  creating : ∀ s pt, r.creating = some (s, pt) → ∃ es₀ u, es = es₀ ++ [⟨s.node, s.usr, u, 0⟩]

namespace SignalRun.Holds

variable {r r' : SignalRun} {es : List Entry} (hr : r.Holds es)
include hr

/-- An entry is known by its user. -/
theorem eq_of_usr {e e' : Entry} (he : e ∈ es) (he' : e' ∈ es) (heq : e.usr = e'.usr) : e = e' :=
  List.inj_on_of_nodup_map hr.heap.usrs he he' heq

/-- An entry in front of the one that is being created has another user. -/
theorem usr_ne_last {es₀ : List Entry} {l e : Entry} (hes : es = es₀ ++ [l]) (he : e ∈ es₀) :
    l.usr ≠ e.usr := by
  have hnodup := hr.heap.usrs
  rw [hes, List.map_append, List.nodup_append] at hnodup
  exact (hnodup.2.2 _ (List.mem_map_of_mem he) _ (List.mem_singleton_self _)).symm

/-- An entry that has an id has that of its window. -/
theorem pid_eq {e : Entry} (he : e ∈ es) (hpid : e.pid ≠ 0) {z : WindowProcess} (hz : z ∈ r.procs)
    (husr : e.usr = z.usr) : e.pid = z.pid := by
  obtain ⟨e', he', -, husr', hstored⟩ := hr.owned z hz
  obtain rfl := hr.eq_of_usr he he' (husr.trans husr'.symm)
  rcases hstored with hstored | ⟨s, pt, hpt, hs, -⟩
  · exact hstored
  · obtain ⟨es₀, u, rfl⟩ := hr.creating s pt hpt
    have hlast : ⟨s.node, s.usr, u, 0⟩ ∈ es₀ ++ [(⟨s.node, s.usr, u, 0⟩ : Entry)] :=
      List.mem_append_right _ (List.mem_singleton_self _)
    rw [hr.eq_of_usr he hlast (husr.trans hs.symm)] at hpid
    exact absurd rfl hpid

/-- A user is linked in. -/
theorem links {s : Started} {name : Bytes} (hst : r.Step (.links s name) r') :
    ∃ es', r'.Holds es' := by
  obtain ⟨hidle, hfresh, -, hrun, hcreating, hprocs⟩ := hst
  obtain ⟨h', hrun', hh', -⟩ := hr.heap.linkUser hfresh.usr hfresh.node name
  obtain rfl : h' = r'.heap := (Prod.mk.inj (hrun'.symm.trans hrun)).2
  refine ⟨_, hh', ?_, ?_, ?_, ?_, ?_⟩
  · intro z hz
    rw [hprocs] at hz
    obtain ⟨e, he, hnode, husr, hpid | ⟨_, _, hsome, -⟩⟩ := hr.owned z hz
    · exact ⟨e, List.mem_append_left _ he, hnode, husr, .inl hpid⟩
    · rw [hidle] at hsome
      cases hsome
  · rw [hprocs]
    exact hr.nonzero
  · rw [hprocs]
    exact hr.distinct
  · intro z hz hreaped _ e he husr
    rw [hprocs] at hz
    rcases List.mem_append.mp he with hold | hnew
    · refine hr.active z hz hreaped (fun s pt hsome => ?_) e hold husr
      rw [hidle] at hsome
      cases hsome
    · obtain ⟨e₀, he₀, -, husr₀, -⟩ := hr.owned z hz
      rw [List.mem_singleton.mp hnew] at husr
      exact absurd (husr₀.trans husr.symm) (hr.heap.usr_ne hfresh.usr he₀)
  · intro s' pt hsome
    rw [hcreating] at hsome
    obtain ⟨rfl, -⟩ := Prod.mk.inj (Option.some.inj hsome)
    exact ⟨es, _, rfl⟩

/-- The creation goes on, and the id is still to be stored. -/
theorem advance {s : Started} {pt pt' : Point} (hpt : r.creating = some (s, pt))
    (hpt' : r'.creating = some (s, pt')) (hprocs : r'.procs = r.procs) {es₀ : List Entry}
    {u u' : UserStruct} (hes : es = es₀ ++ [⟨s.node, s.usr, u, 0⟩])
    (hheap : r'.heap.Holds (es₀ ++ [⟨s.node, s.usr, u', 0⟩]))
    (hactive : pt' = .activeStored → u'.active = true) :
    r'.Holds (es₀ ++ [⟨s.node, s.usr, u', 0⟩]) := by
  refine ⟨hheap, ?_, ?_, ?_, ?_, ?_⟩
  · intro z hz
    rw [hprocs] at hz
    obtain ⟨e, he, hnode, husr, hpid⟩ := hr.owned z hz
    have hstored : ∀ {pid : ℕ}, pid = z.pid ∨
        (∃ s pt, r.creating = some (s, pt) ∧ s.usr = z.usr ∧ s.childpid = z.pid) →
        pid = z.pid ∨
          ∃ s pt, r'.creating = some (s, pt) ∧ s.usr = z.usr ∧ s.childpid = z.pid := by
      rintro pid (hpid | ⟨s', pt₁, hsome, hs'⟩)
      · exact .inl hpid
      · obtain ⟨rfl, -⟩ := Prod.mk.inj (Option.some.inj (hpt.symm.trans hsome))
        exact .inr ⟨s, pt', hpt', hs'⟩
    rw [hes] at he
    rcases List.mem_append.mp he with hold | hlast
    · exact ⟨e, List.mem_append_left _ hold, hnode, husr, hstored hpid⟩
    · obtain rfl := List.mem_singleton.mp hlast
      exact ⟨_, List.mem_append_right _ (List.mem_singleton_self _), hnode, husr, hstored hpid⟩
  · rw [hprocs]
    exact hr.nonzero
  · rw [hprocs]
    exact hr.distinct
  · intro z hz hreaped hstored e he husr
    rw [hprocs] at hz
    rcases List.mem_append.mp he with hold | hlast
    · have hne : s.usr ≠ e.usr := hr.usr_ne_last hes hold
      refine hr.active z hz hreaped ?_ e (hes ▸ List.mem_append_left _ hold) husr
      intro s' pt₁ hsome hs'
      obtain ⟨rfl, -⟩ := Prod.mk.inj (Option.some.inj (hpt.symm.trans hsome))
      exact absurd (hs'.trans husr.symm) hne
    · obtain rfl := List.mem_singleton.mp hlast
      exact hactive (hstored s pt' hpt' husr)
  · intro s' pt₁ hsome
    obtain ⟨rfl, -⟩ := Prod.mk.inj (Option.some.inj (hpt'.symm.trans hsome))
    exact ⟨es₀, u', rfl⟩

/-- The process of the window is there. -/
theorem fork {s : Started} {pt : Point} (hpt : r.creating = some (s, pt))
    (hnext : pt ≠ .activeStored)
    (hzero : s.childpid ≠ 0) (hunused : ∀ z ∈ r.procs, z.reaped = false → z.pid ≠ s.childpid) :
    SignalRun.Holds
      { r with procs := r.procs ++ [⟨s.childpid, s.usr, s.node, false, false⟩] } es := by
  obtain ⟨es₀, u, hes⟩ := hr.creating s pt hpt
  refine ⟨hr.heap, ?_, ?_, ?_, ?_, hr.creating⟩
  · intro z hz
    rcases List.mem_append.mp hz with hold | hnew
    · exact hr.owned z hold
    · obtain rfl := List.mem_singleton.mp hnew
      exact ⟨_, hes ▸ List.mem_append_right _ (List.mem_singleton_self _), rfl, rfl,
        .inr ⟨s, pt, hpt, rfl, rfl⟩⟩
  · intro z hz
    rcases List.mem_append.mp hz with hold | hnew
    · exact hr.nonzero z hold
    · rw [List.mem_singleton.mp hnew]
      exact hzero
  · intro z hz z' hz' hreaped hreaped' heq
    rcases List.mem_append.mp hz with hold | hnew <;> rcases List.mem_append.mp
      hz' with hold' | hnew'
    · exact hr.distinct z hold z' hold' hreaped hreaped' heq
    · rw [List.mem_singleton.mp hnew'] at heq
      exact absurd heq (hunused z hold hreaped)
    · rw [List.mem_singleton.mp hnew] at heq
      exact absurd heq.symm (hunused z' hold' hreaped')
    · rw [List.mem_singleton.mp hnew, List.mem_singleton.mp hnew']
  · intro z hz hreaped hstored e he husr
    rcases List.mem_append.mp hz with hold | hnew
    · exact hr.active z hold hreaped hstored e he husr
    · obtain rfl := List.mem_singleton.mp hnew
      exact absurd (hstored s pt hpt rfl) hnext

/-- The id is stored. -/
theorem stores {s : Started} (hpt : r.creating = some (s, .activeStored))
    (hidle : r'.creating = none) (hprocs : r'.procs = r.procs) {es₀ : List Entry} {u : UserStruct}
    (hes : es = es₀ ++ [⟨s.node, s.usr, u, 0⟩])
    (hheap : r'.heap.Holds (es₀ ++ [⟨s.node, s.usr, u, s.childpid⟩])) :
    r'.Holds (es₀ ++ [⟨s.node, s.usr, u, s.childpid⟩]) := by
  refine ⟨hheap, ?_, ?_, ?_, ?_, ?_⟩
  · intro z hz
    rw [hprocs] at hz
    obtain ⟨e, he, hnode, husr, hpid⟩ := hr.owned z hz
    rw [hes] at he
    rcases List.mem_append.mp he with hold | hlast
    · refine ⟨e, List.mem_append_left _ hold, hnode, husr, ?_⟩
      rcases hpid with hpid | ⟨s', pt, hsome, hs', -⟩
      · exact .inl hpid
      · obtain ⟨rfl, -⟩ := Prod.mk.inj (Option.some.inj (hpt.symm.trans hsome))
        exact absurd (hs'.trans husr.symm) (hr.usr_ne_last hes hold)
    · obtain rfl := List.mem_singleton.mp hlast
      refine ⟨_, List.mem_append_right _ (List.mem_singleton_self _), hnode, husr, .inl ?_⟩
      rcases hpid with hpid | ⟨s', pt, hsome, -, hpid⟩
      · exact absurd hpid.symm (hr.nonzero z hz)
      · obtain ⟨rfl, -⟩ := Prod.mk.inj (Option.some.inj (hpt.symm.trans hsome))
        exact hpid
  · rw [hprocs]
    exact hr.nonzero
  · rw [hprocs]
    exact hr.distinct
  · intro z hz hreaped _ e he husr
    rw [hprocs] at hz
    have hstored : ∀ s' pt, r.creating = some (s', pt) → s'.usr = z.usr → pt = .activeStored := by
      intro s' pt hsome _
      exact (Prod.mk.inj (Option.some.inj (hpt.symm.trans hsome))).2.symm
    rcases List.mem_append.mp he with hold | hlast
    · exact hr.active z hz hreaped hstored e (hes ▸ List.mem_append_left _ hold) husr
    · obtain rfl := List.mem_singleton.mp hlast
      exact hr.active z hz hreaped hstored ⟨s.node, s.usr, u, 0⟩
        (hes ▸ List.mem_append_right _ (List.mem_singleton_self _)) husr
  · intro s' pt hsome
    rw [hidle] at hsome
    cases hsome

/-- `create_new_user` goes on. -/
theorem goesOn (hst : r.Step .goesOn r') : ∃ es', r'.Holds es' := by
  obtain ⟨heap', creating', procs'⟩ := r'
  obtain ⟨s, pt, hpt, hrun, hnext, hprocs⟩ := hst
  obtain ⟨es₀, u, hes⟩ := hr.creating s pt hpt
  have hheap : r.heap.Holds (es₀ ++ [⟨s.node, s.usr, u, 0⟩]) := hes ▸ hr.heap
  have hlast : r.heap.structs s.usr = some u :=
    hheap.structs _ (List.mem_append_right _ (List.mem_singleton_self _))
  have hset : ∀ u', (r.heap.setUser s.usr u').Holds (es₀ ++ [⟨s.node, s.usr, u', 0⟩]) :=
    fun u' => hheap.setEntryUser u'
  cases pt with
  | linked =>
      obtain rfl := (Prod.mk.inj hrun).2
      exact ⟨_, hr.advance hpt hnext hprocs hes hheap (by simp)⟩
  | piped =>
      obtain rfl := (Prod.mk.inj hrun).2
      obtain ⟨hzero, hunused, rfl⟩ := hprocs
      let r₁ : SignalRun := ⟨r.heap, some (s, .forked), r.procs⟩
      have hpt₁ : r₁.creating = some (s, .forked) := rfl
      have hforked : r₁.Holds _ := hr.advance hpt hpt₁ rfl hes hheap (by simp)
      obtain rfl : creating' = some (s, .forked) := hnext
      exact ⟨_, hforked.fork hpt₁ (by simp) hzero hunused⟩
  | forked =>
      obtain rfl := (Prod.mk.inj ((run_updateUser hlast _).symm.trans hrun)).2
      exact ⟨_, hr.advance hpt hnext hprocs hes (hset _) (by simp)⟩
  | rdStored =>
      obtain rfl := (Prod.mk.inj ((run_updateUser hlast _).symm.trans hrun)).2
      exact ⟨_, hr.advance hpt hnext hprocs hes (hset _) (by simp)⟩
  | wrtStored =>
      obtain rfl := (Prod.mk.inj ((run_updateUser hlast _).symm.trans hrun)).2
      exact ⟨_, hr.advance hpt hnext hprocs hes (hset _) fun _ => rfl⟩
  | activeStored =>
      obtain ⟨n, hn, -, -⟩ := hheap.nodes _ (List.mem_append_right _ (List.mem_singleton_self _))
      obtain rfl := (Prod.mk.inj ((run_updateNode hn _).symm.trans hrun)).2
      exact ⟨_, hr.stores hpt hnext hprocs hes (hheap.setLastPid hn s.childpid)⟩

/-- A window exits. -/
theorem exits {z : WindowProcess} (hst : r.Step (.exits z) r') : r'.Holds es := by
  obtain ⟨-, hheap, hcreating, hprocs⟩ := hst
  have hsame : ∀ z' ∈ r'.procs, ∃ z₀ ∈ r.procs, z'.pid = z₀.pid ∧
    z'.usr = z₀.usr ∧ z'.node = z₀.node ∧
      z'.reaped = z₀.reaped ∧ z' = if z₀ = z then { z₀ with exited := true } else z₀ := by
    intro z' hz'
    rw [hprocs] at hz'
    obtain ⟨z₀, hz₀, rfl⟩ := List.mem_map.mp hz'
    refine ⟨z₀, hz₀, ?_, ?_, ?_, ?_, rfl⟩ <;> split <;> rfl
  refine ⟨hheap ▸ hr.heap, ?_, ?_, ?_, ?_, hcreating ▸ hr.creating⟩
  · intro z' hz'
    obtain ⟨z₀, hz₀, hpid, husr, hnode, -⟩ := hsame z' hz'
    rw [hpid, husr, hnode, hcreating]
    exact hr.owned z₀ hz₀
  · intro z' hz'
    obtain ⟨z₀, hz₀, hpid, -⟩ := hsame z' hz'
    rw [hpid]
    exact hr.nonzero z₀ hz₀
  · intro z₁ hz₁ z₂ hz₂ hreaped₁ hreaped₂ heq
    obtain ⟨y₁, hy₁, hpid₁, -, -, hr₁, rfl⟩ := hsame z₁ hz₁
    obtain ⟨y₂, hy₂, hpid₂, -, -, hr₂, rfl⟩ := hsame z₂ hz₂
    rw [hr₁] at hreaped₁
    rw [hr₂] at hreaped₂
    rw [hpid₁, hpid₂] at heq
    rw [hr.distinct y₁ hy₁ y₂ hy₂ hreaped₁ hreaped₂ heq]
  · intro z' hz' hreaped hstored e he husr
    obtain ⟨z₀, hz₀, -, husr₀, -, hreaped₀, -⟩ := hsame z' hz'
    rw [hcreating, husr₀] at hstored
    exact hr.active z₀ hz₀ (hreaped₀ ▸ hreaped) hstored e he (husr.trans husr₀)

/-- The handler has run. -/
theorem handles {z : WindowProcess} (hst : r.Step (.handles z) r') : ∃ es', r'.Holds es' := by
  obtain ⟨hz, -, hreaped, hout, hcreating, hprocs⟩ := hst
  have hstate := hout.unique (hr.heap.sigchild z.pid)
  cases hfind : es.find? (·.pid == z.pid) with
  | none =>
      rw [hfind] at hstate
      cases hstate
  | some e =>
      rw [hfind] at hstate
      have hheap : r'.heap = r.heap.setUser e.usr { e.user with active := false } :=
        (Prod.mk.inj hstate).2
      have he := List.mem_of_find?_eq_some hfind
      have hpid : e.pid = z.pid := by simpa using List.find?_some hfind
      have hkept : ∀ z' ∈ r'.procs, ∃ z₀ ∈ r.procs, z'.pid = z₀.pid ∧ z'.usr = z₀.usr ∧
          z'.node = z₀.node ∧ (z'.reaped = false → z₀.reaped = false ∧ z₀ ≠ z ∧ z' = z₀) := by
        intro z' hz'
        rw [hprocs] at hz'
        obtain ⟨z₀, hz₀, rfl⟩ := List.mem_map.mp hz'
        refine ⟨z₀, hz₀, ?_⟩
        split_ifs with heq
        · exact ⟨rfl, rfl, rfl, fun h => by cases h⟩
        · exact ⟨rfl, rfl, rfl, fun h => ⟨h, heq, rfl⟩⟩
      refine ⟨es.map (Entry.withUser e.usr { e.user with active := false }), ?_, ?_, ?_, ?_, ?_, ?_⟩
      · rw [hheap]
        exact hr.heap.setUser _ _
      · intro z' hz'
        obtain ⟨z₀, hz₀, hpid₀, husr₀, hnode₀, -⟩ := hkept z' hz'
        obtain ⟨e₀, he₀, hnode, husr, hstored⟩ := hr.owned z₀ hz₀
        rw [hpid₀, husr₀, hnode₀, hcreating]
        exact ⟨_, List.mem_map_of_mem
          he₀, by simpa using hnode, by simpa using husr, by simpa using hstored⟩
      · intro z' hz'
        obtain ⟨z₀, hz₀, hpid₀, -⟩ := hkept z' hz'
        rw [hpid₀]
        exact hr.nonzero z₀ hz₀
      · intro z₁ hz₁ z₂ hz₂ hreaped₁ hreaped₂ heq
        obtain ⟨y₁, hy₁, -, -, -, hkept₁⟩ := hkept z₁ hz₁
        obtain ⟨y₂, hy₂, -, -, -, hkept₂⟩ := hkept z₂ hz₂
        obtain ⟨-, -, rfl⟩ := hkept₁ hreaped₁
        obtain ⟨-, -, rfl⟩ := hkept₂ hreaped₂
        exact hr.distinct _ hy₁ _ hy₂ hreaped₁ hreaped₂ heq
      · intro z' hz' hreaped' hstored e' he' husr'
        obtain ⟨z₀, hz₀, -, -, -, hkept⟩ := hkept z' hz'
        obtain ⟨hreaped₀, hne, rfl⟩ := hkept hreaped'
        obtain ⟨e₀, he₀, rfl⟩ := List.mem_map.mp he'
        rw [Entry.usr_withUser] at husr'
        rw [hcreating] at hstored
        by_cases heq : e₀.usr = e.usr
        · have hpid' := hr.pid_eq he (hpid ▸ hr.nonzero z hz) hz₀ (heq.symm.trans husr')
          exact absurd (hr.distinct z hz z' hz₀ hreaped hreaped₀ (hpid.symm.trans hpid')).symm hne
        · rw [show e₀.withUser e.usr _ = e₀ from if_neg heq]
          exact hr.active z' hz₀ hreaped₀ hstored e₀ he₀ husr'
      · intro s pt hsome
        rw [hcreating] at hsome
        obtain ⟨es₀, u, rfl⟩ := hr.creating s pt hsome
        refine ⟨es₀.map (Entry.withUser e.usr { e.user with active := false }),
          (Entry.withUser e.usr { e.user with active := false } ⟨s.node, s.usr, u, 0⟩).user, ?_⟩
        have hlast : Entry.withUser e.usr { e.user with active := false } ⟨s.node, s.usr, u, 0⟩ =
            ⟨s.node, s.usr, (Entry.withUser e.usr { e.user with active := false }
              ⟨s.node, s.usr, u, 0⟩).user, 0⟩ := by
          unfold Entry.withUser
          split <;> rfl
        rw [List.map_append, List.map_singleton, ← hlast]

end SignalRun.Holds

/-- At the start the list is empty. -/
theorem SignalRun.Initial.holds {r : SignalRun} (h : r.Initial) : r.Holds [] := by
  obtain ⟨hhead, htail, hidle, hprocs⟩ := h
  refine ⟨⟨hhead, htail, ?_, ?_, List.nodup_nil⟩, ?_, ?_, ?_, ?_, ?_⟩
  · intro e he
    cases he
  · intro e he
    cases he
  all_goals simp [hidle, hprocs]

/-- **What holds at every point of every run.** -/
theorem SignalRun.Reached.holds {r : SignalRun} (h : SignalRun.Reached r) : ∃ es, r.Holds es := by
  apply h.invariant (I := fun r => ∃ es, r.Holds es)
  · exact fun _ hinit => ⟨[], hinit.holds⟩
  · intro r e r' ⟨es, hr⟩ _ hst
    cases e with
    | links s name => exact hr.links hst
    | goesOn => exact hr.goesOn hst
    | exits z => exact ⟨es, hr.exits hst⟩
    | handles z => exact hr.handles hst

/-! ## The handler -/

/-- Whom the handler leaves inactive, when `create_new_user` is through: the user that it found, and
no other whose window `waitpid` has not returned. -/
theorem SignalRun.Holds.rest {r : SignalRun} {es : List Entry} (hr : r.Holds es)
    {e : Entry} (he : e ∈ es)
    (hpid : e.pid ≠ 0) (u : UserStruct) : ∃ h', r.rest.run (r.heap.setUser e.usr u) = (.ok (), h') ∧
      h'.structs e.usr = some u ∧ ∀ z ∈ r.procs, z.reaped = false → z.usr ≠ e.usr →
        ∃ v, h'.structs z.usr = some v ∧ v.active = true := by
  unfold SignalRun.rest
  cases hcreating : r.creating with
  | none =>
      refine ⟨_, rfl, structs_setUser_self u, fun z hz hreaped hne => ?_⟩
      obtain ⟨ez, hez, -, husr, -⟩ := hr.owned z hz
      refine ⟨ez.user, ?_, ?_⟩
      · rw [structs_setUser_of_ne hne, ← husr]
        exact hr.heap.structs ez hez
      · refine hr.active z hz hreaped (fun s pt hsome => ?_) ez hez husr
        rw [hcreating] at hsome
        cases hsome
  | some x =>
      obtain ⟨s, pt⟩ := x
      obtain ⟨es₀, l, hes⟩ := hr.creating s pt hcreating
      have hlast : (⟨s.node, s.usr, l, 0⟩ : Entry) ∈ es :=
        hes ▸ List.mem_append_right _ (List.mem_singleton_self _)
      have hne : s.usr ≠ e.usr := by
        intro heq
        rw [← hr.eq_of_usr hlast he heq] at hpid
        exact hpid rfl
      have hin : ∀ e' ∈ es, e'.usr ≠ s.usr → e' ∈ es₀ := by
        intro e' he' hne'
        rw [hes] at he'
        rcases List.mem_append.mp he' with hold | hnew
        · exact hold
        · rw [List.mem_singleton.mp hnew] at hne'
          exact absurd rfl hne'
      have hset := hr.heap.setUser e.usr u
      rw [hes, List.map_append, List.map_singleton,
        show Entry.withUser e.usr u ⟨s.node, s.usr, l, 0⟩ = _ from if_neg hne] at hset
      obtain ⟨h', u', hrun, hh', hactive⟩ := run_rest hset pt
      have hkept : ∀ e' ∈ es, e'.usr ≠ s.usr →
          h'.structs e'.usr = some (e'.withUser e.usr u).user := by
        intro e' he' hne'
        have hstructs :=
          hh'.structs _ (List.mem_append_left _ (List.mem_map_of_mem (hin e' he' hne')))
        rwa [Entry.usr_withUser] at hstructs
      refine ⟨h', hrun, ?_, fun z hz hreaped hne' => ?_⟩
      · rw [hkept e he hne.symm, show e.withUser e.usr u = _ from if_pos rfl]
      · obtain ⟨ez, hez, -, husr, -⟩ := hr.owned z hz
        by_cases hcase : s.usr = z.usr
        · refine ⟨u', ?_, ?_⟩
          · rw [← hcase]
            exact hh'.structs _ (List.mem_append_right _ (List.mem_singleton_self _))
          · split_ifs at hactive with hpt
            · rw [hactive]
              refine hr.active z hz hreaped (fun s' pt' hsome _ => ?_) _ hlast hcase
              rw [← (Prod.mk.inj (Option.some.inj (hcreating.symm.trans hsome))).2]
              exact hpt
            · exact hactive
        · refine ⟨ez.user, ?_, ?_⟩
          · rw [← husr, hkept ez hez (fun h => hcase (h.symm.trans husr)),
              show ez.withUser e.usr u = ez from if_neg fun h => hne' (husr.symm.trans h)]
          · refine hr.active z hz hreaped (fun s' pt' hsome hs' => ?_) ez hez husr
            obtain ⟨rfl, -⟩ := Prod.mk.inj (Option.some.inj (hcreating.symm.trans hsome))
            exact absurd hs' hcase

/-- **When the handler is right**: wherever `create_new_user` is, and whatever ids have come again,
exactly where the id of the window is stored in its entry and no entry in front of it has the
same. -/
theorem SignalRun.clears_iff {r : SignalRun} (h : SignalRun.Reached r) {z : WindowProcess}
    (hz : z ∈ r.procs) (hreaped : z.reaped = false) : r.Clears z ↔ r.FoundFirst z := by
  obtain ⟨es, hr⟩ := h.holds
  obtain ⟨ez, hez, hnode, husr, -⟩ := hr.owned z hz
  have hsettles := hr.heap.sigchild z.pid
  rw [foundFirst_iff hr.heap]
  cases hfind : es.find? (·.pid == z.pid) with
  | none =>
      rw [hfind] at hsettles
      refine iff_of_false ?_ ?_
      · rintro ⟨h', h'', u, hout, -⟩
        cases hout.unique hsettles
      · rintro ⟨e, hsome, -⟩
        cases hsome
  | some e =>
      rw [hfind] at hsettles
      have he := List.mem_of_find?_eq_some hfind
      have hpid : e.pid = z.pid := by simpa using List.find?_some hfind
      obtain ⟨h', hrest, hfound, hothers⟩ := hr.rest he (hpid ▸ hr.nonzero z hz)
        { e.user with active := false }
      constructor
      · rintro ⟨h₁, h₂, u, hout, -, hrun, hu, hinactive⟩
        obtain rfl := (Prod.mk.inj (hout.unique hsettles)).2
        obtain rfl := (Prod.mk.inj (hrest.symm.trans hrun)).2
        refine ⟨e, rfl, ?_⟩
        by_cases hsame : z.usr = e.usr
        · rw [hr.eq_of_usr he hez (hsame.symm.trans husr.symm)]
          exact hnode
        · obtain ⟨v, hv, hactive⟩ := hothers z hz hreaped hsame
          obtain rfl := Option.some.inj (hu.symm.trans hv)
          rw [hinactive] at hactive
          cases hactive
      · rintro ⟨e', hsome, hnode'⟩
        obtain rfl := Option.some.inj hsome
        have heq : e = ez :=
          List.inj_on_of_nodup_map hr.heap.linked.nodup he hez (hnode'.trans hnode.symm)
        subst heq
        refine ⟨_, h', _, hsettles, fun a ha => ?_, hrest, husr ▸ hfound, rfl⟩
        rw [structs_setUser_of_ne (husr ▸ ha)]

/-! ## A window that exits -/

/-- A client without users, and what the calls for the first one return. -/
private def noUsers : SignalRun := ⟨⟨fun _ => none, fun _ => none, none, none, []⟩, none, []⟩

private def firstUser : Started := ⟨1, 2, 4, 5, 9⟩

private def linkedHeap : Heap := ((Heap.linkUser firstUser [97]).run noUsers.heap).2

/-- The process of its window. -/
private def firstWindow (exited : Bool) : WindowProcess := ⟨9, 1, 2, exited, false⟩

/-- The client when it has forked. -/
private def forkedRun (exited : Bool) : SignalRun :=
  ⟨linkedHeap, some (firstUser, .forked), [firstWindow exited]⟩

private theorem reached_forkedRun : SignalRun.Reached (forkedRun false) := by
  have hinit : noUsers.Initial := ⟨rfl, rfl, rfl, rfl⟩
  have hfind : Eff.Settles (Heap.findUser [97]) noUsers.heap (.ok none, noUsers.heap) :=
    ⟨0, fun fuel hfuel => hinit.holds.heap.findUser [97] hfuel⟩
  have hlinks : noUsers.Step (.links firstUser [97]) ⟨linkedHeap, some (firstUser, .linked), []⟩ :=
    ⟨rfl, ⟨rfl, rfl⟩, hfind, rfl, rfl, rfl⟩
  have hpipe : SignalRun.Step ⟨linkedHeap, some (firstUser, .linked), []⟩ .goesOn
      ⟨linkedHeap, some (firstUser, .piped), []⟩ := ⟨firstUser, .linked, rfl, rfl, rfl, rfl⟩
  have hfork : SignalRun.Step ⟨linkedHeap, some (firstUser, .piped), []⟩
      .goesOn (forkedRun false) :=
    ⟨firstUser, .piped, rfl, rfl, rfl, by simp [firstUser], by simp, rfl⟩
  exact Reachable.next (Reachable.next (Reachable.next (.start hinit) hlinks) hpipe) hfork

/-- A window that exits before its id is stored. -/
theorem SignalRun.not_clears : ¬∀ r, SignalRun.Reached r → ∀ z ∈ r.procs, z.exited = true →
    z.reaped = false → r.Clears z := by
  intro hall
  have hexits : (forkedRun false).Step (.exits (firstWindow false)) (forkedRun true) :=
    ⟨List.mem_singleton_self _, rfl, rfl, rfl⟩
  have hreached := Reachable.next reached_forkedRun hexits
  obtain ⟨h', -, -, ⟨k, hk⟩, -⟩ :=
    hall _ hreached (firstWindow true) (List.mem_singleton_self _) rfl rfl
  have hrun : (Heap.sigchild 9 (k + 2)).run linkedHeap =
    (.error (.fault .nullPointer), linkedHeap) := rfl
  have hok : (Heap.sigchild 9 (k + 2)).run linkedHeap = (.ok (), h') :=
    hk (k + 2) (Nat.le_add_right k 2)
  rw [hrun] at hok
  cases hok

/-- The client when it has stored everything. -/
private def storedRun (exited : Bool) : SignalRun :=
  ⟨((Point.forked.rest firstUser).run linkedHeap).2, none, [firstWindow exited]⟩

/-- A window that exits behind that. -/
theorem SignalRun.clears_stored : ∃ r z, SignalRun.Reached r ∧ z ∈ r.procs ∧ z.exited = true ∧
    z.reaped = false ∧ r.Clears z := by
  let h₁ : Heap := ((Point.forked.step firstUser).run linkedHeap).2
  let h₂ : Heap := ((Point.rdStored.step firstUser).run h₁).2
  let h₃ : Heap := ((Point.wrtStored.step firstUser).run h₂).2
  have hrd : (forkedRun false).Step .goesOn ⟨h₁, some (firstUser, .rdStored),
      [firstWindow false]⟩ :=
    ⟨firstUser, .forked, rfl, rfl, rfl, rfl⟩
  have hwrt : SignalRun.Step ⟨h₁, some (firstUser, .rdStored), [firstWindow false]⟩ .goesOn
      ⟨h₂, some (firstUser, .wrtStored), [firstWindow false]⟩ :=
    ⟨firstUser, .rdStored, rfl, rfl, rfl, rfl⟩
  have hactive : SignalRun.Step ⟨h₂, some (firstUser, .wrtStored), [firstWindow false]⟩ .goesOn
      ⟨h₃, some (firstUser, .activeStored), [firstWindow false]⟩ :=
    ⟨firstUser, .wrtStored, rfl, rfl, rfl, rfl⟩
  have hpid : SignalRun.Step ⟨h₃, some (firstUser, .activeStored), [firstWindow false]⟩ .goesOn
      (storedRun false) := ⟨firstUser, .activeStored, rfl, rfl, rfl, rfl⟩
  have hstored :=
    Reachable.next (Reachable.next (Reachable.next (Reachable.next reached_forkedRun hrd) hwrt)
      hactive) hpid
  have hexits : (storedRun false).Step (.exits (firstWindow false)) (storedRun true) :=
    ⟨List.mem_singleton_self _, rfl, rfl, rfl⟩
  have hreached := Reachable.next hstored hexits
  refine ⟨_, firstWindow true, hreached, List.mem_singleton_self _, rfl, rfl, ?_⟩
  apply (SignalRun.clears_iff hreached (List.mem_singleton_self _) rfl).mpr
  refine ⟨[], [], ⟨rfl, _, rfl, rfl, rfl⟩, rfl, ?_⟩
  intro a ha
  cases ha

end ME2U.Client
