import ME2U.Client.Outgoing
import ME2U.System.ChatWindow

/-!
# What `select` says and what is read

`regular_chat` asks `select` only whether it returns zero. When a signal comes, it returns -1 and
leaves the set as it was: the socket is in it, and is read from, with nothing to be read there. The
descriptors of the windows are put into a copy of the set, and `select` never hears of them.

* `Selected`: the three ways in which `select` returns.
* `SelectRun.Step`: the steps of a run, with what each iteration has read.
* `SelectRun.onlyReady_iff`: which iterations read only what is ready.
* `setFdForChilds`, `watchesWindows_iff`: when the set has the descriptors of all windows that are
  open.
-/

namespace ME2U.System

open Client

/-! ## How `select` returns -/

/-- How `select` returns. -/
inductive Selected
  /-- The time is up. -/
  | timedOut
  /-- These descriptors are ready. -/
  | ready (fds : List ℕ)
  /-- A signal has come. -/
  | interrupted
  deriving DecidableEq

namespace Selected

/-- What it returns, which is compared with zero.
Source: `client.c` `regular_chat` (line 220) -/
def result : Selected → ℤ
  | timedOut => 0
  | ready fds => fds.length
  | interrupted => -1

/-- What it leaves in `rset`. -/
def rset (l : Loop) : Selected → List ℕ
  | timedOut => []
  | ready fds => fds
  | interrupted => l.watched

/-- The descriptors that it reports. -/
def reported : Selected → List ℕ
  | ready fds => fds
  | _ => []

/-- It reports what it was asked about. -/
def Possible (l : Loop) : Selected → Prop
  | ready fds => fds ≠ [] ∧ ∀ fd ∈ fds, fd ∈ l.watched
  | _ => True

variable {l : Loop} {o : Selected}

/-- What is left in `rset` was there. -/
theorem Possible.watched (h : o.Possible l) : ∀ fd ∈ o.rset l, fd ∈ l.watched := by
  cases o with
  | timedOut => simp [rset]
  | ready fds => exact h.2
  | interrupted => exact fun _ hfd => hfd

/-- Where something is left in `rset`, the result is not zero, so that the test of the result is
passed where the test of the socket is. -/
theorem result_ne_zero {fd : ℕ} (hfd : fd ∈ o.rset l) : o.result ≠ 0 := by
  cases o with
  | timedOut => cases hfd
  | ready fds =>
      have hpos : 0 < fds.length := List.length_pos_of_mem hfd
      show (fds.length : ℤ) ≠ 0
      omega
  | interrupted => decide

end Selected

/-! ## What an iteration reads -/

section Reads

variable (slack : Slack) (pid : ℕ → ℕ) (pipe : ℕ → ReadResult)

/-- The descriptors that are read from in an iteration: the socket, the terminal and the windows.
Source: `client.c` `regular_chat` (lines 221–316) -/
def allReads (ready : List ℕ) (server : ReadResult) (l : Loop) : List ℕ :=
  (if sockFd ∈ ready then [sockFd] else []) ++
    (match (beforeInput slack pid ready server).run l with
      | (.ok (.input, _), _) => if stdinFd ∈ ready then [stdinFd] else []
      | _ => []) ++
    iterationReads slack pipe pid ready server l

/-- Without a descriptor of a window in the set, only what is in it is read from. -/
theorem mem_of_mem_allReads {ready : List ℕ} (hready : ∀ fd ∈ ready, fd < 4)
    {server : ReadResult} {l : Loop}
    (hl : l.Sound pid) {fd : ℕ} (hfd : fd ∈ allReads slack pid pipe ready server l) :
    fd ∈ ready := by
  unfold allReads at hfd
  rw [iterationReads_eq_nil hready server hl, List.append_nil, List.mem_append] at hfd
  rcases hfd with hsock | hstdin
  · split_ifs at hsock with hmem
    · rwa [List.mem_singleton.mp hsock]
    · cases hsock
  · split at hstdin
    · split_ifs at hstdin with hmem
      · rwa [List.mem_singleton.mp hstdin]
      · cases hstdin
    · cases hstdin

/-- A socket that is ready is read. -/
theorem sockFd_mem_allReads {ready : List ℕ} (hsock : sockFd ∈ ready)
    (server : ReadResult) (l : Loop) :
    sockFd ∈ allReads slack pid pipe ready server l := by
  unfold allReads
  rw [if_pos hsock]
  simp

end Reads

/-! ## Runs -/

/-- An iteration of `regular_chat`: how `select` returned, and the descriptors that were then read
from. -/
structure Iteration where
  selected : Selected
  reads : List ℕ

/-- Only what `select` reported was read from. -/
def Iteration.OnlyReady (it : Iteration) : Prop := ∀ fd ∈ it.reads, fd ∈ it.selected.reported

/-- A run of `regular_chat`, and the iterations so far. -/
structure SelectRun where
  run : DeskRun
  iterations : List Iteration

/-- What happens in a run. -/
inductive SelectEvent
  /-- An iteration, with how `select` returns, what the reads return and what `fork` returns. -/
  | iterates (o : Selected) (server typed : ReadResult) (pipe : ℕ → ReadResult) (pid : ℕ → ℕ)
  /-- The window at a pipe is closed. -/
  | exits (n : ℕ)
  /-- `SIGCHLD` is handled, and `waitpid` returns these ids. -/
  | sigchild (pids : List ℕ)

namespace SelectRun

/-- The steps of a run. -/
def Step (slack : Slack) (s : SelectRun) : SelectEvent → SelectRun → Prop
  | .iterates o server typed pipe pid, s' =>
      o.Possible s.run.loop ∧
        s.run.Step slack (.iterates (o.rset s.run.loop) server typed pipe pid) s'.run ∧
        s'.iterations = s.iterations ++
          [⟨o, allReads slack pid pipe (o.rset s.run.loop) server s.run.loop⟩]
  | .exits n, s' => s.run.Step slack (.exits n) s'.run ∧ s'.iterations = s.iterations
  | .sigchild pids, s' => s.run.Step slack (.sigchild pids) s'.run ∧ s'.iterations = s.iterations

/-- The start of `regular_chat`; something may have been read already. -/
def Initial (s : SelectRun) : Prop :=
  ∃ buf, s = ⟨⟨⟨⟨Process.initial.withBuf buf, [], []⟩, [], false, []⟩, false⟩, []⟩

/-- The states that the runs reach. -/
abbrev Reached (slack : Slack) : SelectRun → Prop := Reachable Initial (Step slack)

/-- The state after an iteration. -/
def iterated (slack : Slack) (s : SelectRun) (o : Selected) (server typed : ReadResult)
    (pipe : ℕ → ReadResult) (pid : ℕ → ℕ) : SelectRun where
  run := ⟨((iteration slack pid (o.rset s.run.loop) server typed pipe).run s.run.loop).2,
    endsLoop ((iteration slack pid (o.rset s.run.loop) server typed pipe).run s.run.loop).1⟩
  iterations := s.iterations ++ [⟨o, allReads slack pid pipe (o.rset s.run.loop) server s.run.loop⟩]

/-- An iteration is a step. -/
theorem step_iterated (slack : Slack) {s : SelectRun} (hended : s.run.ended = false) {o : Selected}
    (ho : o.Possible s.run.loop) {server typed : ReadResult} (hserver : server.Fits)
    (htyped : typed.Fits) (pipe : ℕ → ReadResult) {pid : ℕ → ℕ} (hpid : Forks pid s.run.loop.desk) :
    s.Step slack (.iterates o server typed pipe pid) (s.iterated slack o server typed pipe pid) :=
  ⟨ho, ⟨hended, ho.watched, hserver, htyped, hpid, rfl⟩, rfl⟩

/-- What holds in a run. -/
structure Holds (s : SelectRun) : Prop where
  run : s.run.Holds
  iterations : ∀ it ∈ s.iterations, it.OnlyReady ↔ it.selected ≠ .interrupted

/-- **One iteration** reads only what is ready iff `select` has reported something, or nothing: when
it is interrupted, the socket is read from. -/
theorem onlyReady_iteration_iff (slack : Slack) {s : DeskRun} (h : s.Holds) {pid : ℕ → ℕ}
    (hpid : Forks pid s.loop.desk) {o : Selected} (ho : o.Possible s.loop) (server : ReadResult)
    (pipe : ℕ → ReadResult) :
    Iteration.OnlyReady ⟨o, allReads slack pid pipe (o.rset s.loop) server s.loop⟩ ↔
      o ≠ .interrupted := by
  have hlow : ∀ fd ∈ o.rset s.loop, fd < 4 :=
    fun fd hfd => h.unwatched.watched fd (ho.watched fd hfd)
  have hsound : s.loop.Sound pid := ⟨h.tidy, hpid.forking, h.unwatched, h.filings⟩
  have hreads : ∀ fd ∈ allReads slack pid pipe (o.rset s.loop) server s.loop, fd ∈ o.rset s.loop :=
    fun fd hfd => mem_of_mem_allReads slack pid pipe hlow hsound hfd
  constructor
  · rintro honly rfl
    have hsock : sockFd ∈ s.loop.watched := by simp [Loop.watched]
    exact absurd (honly sockFd (sockFd_mem_allReads slack pid pipe hsock server s.loop))
      List.not_mem_nil
  · intro ho' fd hfd
    cases o with
    | timedOut => exact hreads fd hfd
    | ready fds => exact hreads fd hfd
    | interrupted => exact absurd rfl ho'

/-- The invariant holds at the start. -/
theorem Initial.holds {s : SelectRun} (h : s.Initial) : s.Holds := by
  obtain ⟨buf, rfl⟩ := h
  refine ⟨DeskRun.holds_withBuf buf, ?_⟩
  intro it hit
  cases hit

/-- **One step.** -/
theorem Holds.step {slack : Slack} {s s' : SelectRun} {e : SelectEvent} (h : s.Holds)
    (hst : s.Step slack e s') : s'.Holds := by
  cases e with
  | iterates o server typed pipe pid =>
      obtain ⟨ho, hrun, hiterations⟩ := hst
      refine ⟨h.run.step hrun, ?_⟩
      rw [hiterations, List.forall_mem_append, List.forall_mem_singleton]
      exact ⟨h.iterations, onlyReady_iteration_iff slack h.run hrun.2.2.2.2.1 ho server pipe⟩
  | exits n => exact ⟨h.run.step hst.1, hst.2 ▸ h.iterations⟩
  | sigchild pids => exact ⟨h.run.step hst.1, hst.2 ▸ h.iterations⟩

/-- The invariant holds in every run. -/
theorem Reached.holds {slack : Slack} {s : SelectRun} (h : Reached slack s) : s.Holds :=
  h.invariant (fun _ hinit => hinit.holds) fun _ _ _ hs _ hst => hs.step hst

/-- **Only what is ready is read from**: in every run, an iteration reads only from descriptors that
`select` has reported iff `select` has not been interrupted in it. -/
theorem onlyReady_iff (slack : Slack) {s : SelectRun} (h : Reached slack s) :
    ∀ it ∈ s.iterations, it.OnlyReady ↔ it.selected ≠ .interrupted :=
  h.holds.iterations

/-! ## The set that is handed to `select` -/

/-- What `set_fd_for_childs` makes of its argument. That is passed by value, so that the caller has
its own set as it was.
Source: `client.c` `set_fd_for_childs` (lines 188–201) -/
def setFdForChilds : List UserStruct → List ℕ → List ℕ
  | [], rset => rset
  | temp :: users, rset =>
      setFdForChilds users (if temp.active then temp.wrt :: temp.rd :: rset else rset)

/-- The descriptors of the users with a window are added. -/
theorem mem_setFdForChilds_iff {users : List UserStruct} {rset : List ℕ} {fd : ℕ} :
    fd ∈ setFdForChilds users rset ↔
      fd ∈ rset ∨ ∃ u ∈ users, u.active = true ∧ (fd = u.rd ∨ fd = u.wrt) := by
  induction users generalizing rset with
  | nil => simp [setFdForChilds]
  | cons u users ih =>
      rw [setFdForChilds, ih]
      by_cases hactive : u.active = true
      · simp [hactive]
        grind
      · simp [hactive]

/-- The set that it makes has the descriptors of all windows that are open. -/
theorem rd_mem_setFdForChilds {users : List UserStruct} {u : UserStruct} (hu : u ∈ users)
    (hactive : u.active = true) (rset : List ℕ) : u.rd ∈ setFdForChilds users rset :=
  mem_setFdForChilds_iff.mpr (.inr ⟨u, hu, hactive, .inl rfl⟩)

/-- `select` has been asked about the windows, and has reported those with something to be read. -/
def Reports (l : Loop) (ready : List ℕ) (pipe : ℕ → ReadResult) : Prop :=
  (∀ fd ∈ ready, fd ∈ l.watched) ∧
    ∀ u ∈ l.desk.client.users, u.rd ∈ l.watched → (∃ b, pipe u.rd = .data b) → u.rd ∈ ready

/-- **The windows are watched**: `select` is called with the socket, the terminal, unless it was
closed, and the windows that are open; and in an iteration that gets to the windows what was typed
in one of these is read, once, and sent. -/
structure WatchesWindows (slack : Slack) (l : Loop) : Prop where
  sock : sockFd ∈ l.watched
  stdin : l.stdineof = false → stdinFd ∈ l.watched
  users : ∀ u ∈ l.desk.client.users, u.active = true → u.rd ∈ l.watched
  heard : ∀ ready server typed pipe pid blk l₁, Reports l ready pipe → stdinFd ∉ ready →
    (beforeInput slack pid ready server).run l = (.ok (.input, blk), l₁) →
      ∀ u ∈ l.desk.client.users, u.active = true → (∃ b, pipe u.rd = .data b) →
        (iterationReads slack pipe pid ready server l).count u.rd = 1 ∧
          ∃ text, (Fd.sock, childText u.username text) ∈
            newly l.desk.client.wrote
              ((iteration slack pid ready server typed pipe).run l).2.desk.client.wrote

/-- **Which windows are watched**: in every run, at every point, `select` is about to be called with
the descriptors of all windows that are open iff no window is open. -/
theorem watchesWindows_iff (slack : Slack) {s : SelectRun} (h : Reached slack s) :
    WatchesWindows slack s.run.loop ↔ ∀ u ∈ s.run.loop.desk.client.users, u.active = false := by
  have hrun := h.holds.run
  constructor
  · intro hwatches u hu
    by_contra hactive
    rw [Bool.not_eq_false] at hactive
    have hlow := hrun.unwatched.watched u.rd (hwatches.users u hu hactive)
    have hhigh := (hrun.tidy.pipesApart.ends (u.rd, u.wrt) (List.mem_map_of_mem hu)).1
    exact absurd hlow (Nat.not_lt.mpr hhigh)
  · intro hnone
    have hno : ∀ u ∈ s.run.loop.desk.client.users, ¬u.active = true :=
      fun u hu => by simp [hnone u hu]
    refine ⟨by simp [Loop.watched], ?_, fun u hu h => absurd h (hno u hu), ?_⟩
    · intro hopen
      simp [Loop.watched, hopen]
    · intro _ _ _ _ _ _ _ _ _ _ u hu h
      exact absurd h (hno u hu)

/-! ## The run of a window that is closed -/

/-- What is read in the first iteration. -/
private def greeting : Iteration :=
  ⟨.ready [sockFd], allReads (fun _ => 1) id (fun _ => .failed)
    [sockFd] (.data (messageFrame [97] [104])) quiet.loop⟩

private theorem reached_greeted : Reached (fun _ => 1) ⟨windowOpen, [greeting]⟩ := by
  have hstart : Initial ⟨quiet, []⟩ := ⟨.of [], rfl⟩
  apply Reachable.next (.start hstart)
    (e := .iterates (.ready [sockFd]) (.data (messageFrame [97] [104]))
      .failed (fun _ => .failed) id)
  exact ⟨⟨by decide, by simp [Loop.watched]⟩, step_windowOpen, rfl⟩

private theorem reached_parted : Reached (fun _ => 1) ⟨windowClosed, [greeting]⟩ := by
  have hexited : Reached (fun _ => 1) ⟨windowExited, [greeting]⟩ :=
    Reachable.next reached_greeted (e := .exits 5) ⟨step_windowExited, rfl⟩
  exact Reachable.next hexited (e := .sigchild [5]) ⟨step_windowClosed, rfl⟩

/-- A message is ready, and read. -/
theorem onlyReady_greeting : Iteration.OnlyReady
    ⟨.ready [sockFd], allReads (fun _ => 1) id (fun _ => .failed)
      [sockFd] (.data (messageFrame [97] [104])) quiet.loop⟩ :=
  (onlyReady_iff (fun _ => 1) reached_greeted greeting (List.mem_singleton_self _)).mpr (by decide)

/-- The signal for a window that is closed interrupts `select`, and the socket is read from. -/
theorem not_onlyReady : ¬∀ slack s, Reached slack s → ∀ it ∈ s.iterations, it.OnlyReady := by
  intro hall
  have hpossible : Selected.interrupted.Possible windowClosed.loop := trivial
  have hfailed : ReadResult.failed.Fits := trivial
  have hforks : Forks id windowClosed.loop.desk := ⟨fun _ _ h => h, by simp [windowClosed]⟩
  have hstep :=
    step_iterated (fun _ => 1) (s := ⟨windowClosed, [greeting]⟩) rfl hpossible hfailed hfailed
    (fun _ => .failed) hforks
  have hit := List.mem_append_right [greeting] (List.mem_singleton_self (Iteration.mk .interrupted
    (allReads (fun _ => 1) id (fun _ => .failed) windowClosed.loop.watched .failed
      windowClosed.loop)))
  have honly := hall (fun _ => 1) _ (Reachable.next reached_parted hstep) _ hit
  have hsock : sockFd ∈ windowClosed.loop.watched := by simp [Loop.watched]
  exact absurd
    (honly sockFd (sockFd_mem_allReads (fun _ => 1) id _ hsock .failed windowClosed.loop))
    List.not_mem_nil

/-- The window is closed. -/
theorem watchesWindows_parted : WatchesWindows (fun _ => 1) windowClosed.loop :=
  (watchesWindows_iff (fun _ => 1) reached_parted).mpr (by decide)

/-- The window is open, and what is typed in it is not looked for. -/
theorem not_watchesWindows : ¬∀ slack s, Reached slack s → WatchesWindows slack s.run.loop := by
  intro hall
  have hmem :=
    (hall (fun _ => 1) _ reached_greeted).users ⟨[97], 0, 0, 4, 5, true⟩
    (List.mem_singleton_self _) rfl
  exact absurd hmem (by decide)

end SelectRun

end ME2U.System
