import ME2U.Client.Announced

/-!
# The bound that `select` is given

`set_fd_for_childs` raises `maxfdpl` for every active user, to one more than both descriptors, and
is called in every iteration and for every user that is created. A bound that is there already is
raised all the same, twice for each active user.

* `setFdForChilds`: what a call makes of the bound; `SelectCall.Sound`: what it makes of it in a
  run.
* `BoundRun`: a run with the bound and the calls of `select`.
* `BoundRun.tight_iff`: the bound is one more than the largest descriptor as long as `select` is
  never called with an active user.
-/

namespace ME2U.Client

/-! ## The bound -/

/-- `n + 1` as an `int`. -/
def succInt (n : ℕ) : Except Fault ℕ := if n < intMax then .ok (n + 1) else .error .intOverflow

/-- What is made of `maxfdpl`; `rset` is passed by value.
Source: `client.c` `set_fd_for_childs` (lines 188–201) -/
def setFdForChilds : List UserStruct → ℕ → Except Fault ℕ
  | [], maxfdpl => .ok maxfdpl
  | temp :: users, maxfdpl =>
      if temp.active then do
        let maxfdpl ← succInt (max maxfdpl temp.rd)
        let maxfdpl ← succInt (max maxfdpl temp.wrt)
        setFdForChilds users maxfdpl
      else setFdForChilds users maxfdpl

/-- What an iteration makes of it: where it has created a user, `set_fd_for_childs` was called
again.
Source: `client.c` `create_new_user` (line 513) -/
def setFdForCreated (before after : List UserStruct) (maxfdpl : ℕ) : Except Fault ℕ :=
  if before.length < after.length then setFdForChilds after maxfdpl else .ok maxfdpl

/-- The largest of the descriptors of the terminal, the socket and the users. -/
def largestFd (users : List UserStruct) : ℕ :=
  (users.map fun u => (u.rd, u.wrt)).foldl (fun n fds => max (max n fds.1) fds.2)
    (max stdinFd sockFd)

/-- Adding one is defined below `INT_MAX` only. -/
theorem succInt_eq_ok_iff {n m : ℕ} : succInt n = .ok m ↔ n < intMax ∧ n + 1 = m := by
  unfold succInt
  split_ifs with h
  · simp [h]
  · simp [h]

/-- An active user raises the bound twice, and above its descriptors. -/
theorem setFdForChilds_cons_active {u : UserStruct} (hu : u.active = true) (users : List UserStruct)
    (m : ℕ) : setFdForChilds (u :: users) m =
      succInt (max m u.rd) >>= fun m => succInt (max m u.wrt) >>= setFdForChilds users := by
  rw [setFdForChilds, if_pos hu]

/-- A user without a window sets no descriptor, -/
theorem setFdForChilds_cons_inactive {u : UserStruct} (hu : u.active = false)
    (users : List UserStruct) (m : ℕ) : setFdForChilds (u :: users) m = setFdForChilds users m := by
  rw [setFdForChilds, if_neg (by simp [hu])]

/-- **What a call does to the bound**: it gets above the descriptors of the active users, and by two
or more for each of them. -/
theorem setFdForChilds_spec {users : List UserStruct} {m n : ℕ}
    (h : setFdForChilds users m = .ok n) :
    m + 2 * users.countP (·.active) ≤ n ∧ ∀ u ∈ users, u.active = true → u.rd < n ∧ u.wrt < n := by
  induction users generalizing m with
  | nil =>
      obtain rfl := Except.ok.inj h
      simp
  | cons u users ih =>
      cases hu : u.active with
      | false =>
          rw [setFdForChilds_cons_inactive hu] at h
          obtain ⟨hle, habove⟩ := ih h
          rw [List.countP_cons_of_neg (by simp [hu]), List.forall_mem_cons]
          exact ⟨hle, fun hactive => absurd (hu.symm.trans hactive) Bool.false_ne_true, habove⟩
      | true =>
          rw [setFdForChilds_cons_active hu] at h
          obtain ⟨m₁, h₁, h⟩ := exists_of_bind_eq_ok h
          obtain ⟨m₂, h₂, h⟩ := exists_of_bind_eq_ok h
          obtain ⟨-, rfl⟩ := succInt_eq_ok_iff.mp h₁
          obtain ⟨-, rfl⟩ := succInt_eq_ok_iff.mp h₂
          obtain ⟨hle, habove⟩ := ih h
          rw [List.countP_cons_of_pos (by simp [hu]), List.forall_mem_cons]
          refine ⟨by omega, fun _ => ⟨by omega, by omega⟩, habove⟩

/-- Without active users it does nothing. -/
theorem setFdForChilds_append_of_inactive {idle : List UserStruct}
    (hidle : ∀ u ∈ idle, u.active = false)
    (users : List UserStruct) (m : ℕ) :
    setFdForChilds (idle ++ users) m = setFdForChilds users m := by
  induction idle with
  | nil => rfl
  | cons u idle ih =>
      rw [List.forall_mem_cons] at hidle
      rw [List.cons_append, setFdForChilds_cons_inactive hidle.1, ih hidle.2]

/-- A list of users without windows leaves the bound as it is. -/
theorem setFdForChilds_of_inactive {users : List UserStruct}
    (h : ∀ u ∈ users, u.active = false) (m : ℕ) :
    setFdForChilds users m = .ok m := by
  have hcall := setFdForChilds_append_of_inactive h [] m
  rwa [List.append_nil] at hcall

/-! ## The descriptors -/

/-- The descriptors are given out in order. -/
structure Process.Numbered (c : Process) : Prop where
  next : c.nextFd = 4 + 2 * c.users.length
  ends : c.users.map (fun u => (u.rd, u.wrt)) =
    (List.range c.users.length).map fun i => (4 + 2 * i, 5 + 2 * i)

/-- No output of the client changes its numbering. -/
theorem steady_numbered : Steady Process.Numbered where
  stable :=
    { wrote := fun _ _ _ _ h => ⟨h.next, h.ends⟩
      addUser := by
        intro c w _ h
        have hlength : (c.addUser w).users.length = c.users.length + 1 := by simp [Process.addUser]
        refine ⟨?_, ?_⟩
        · rw [hlength]
          show c.nextFd + 2 = _
          rw [h.next]
          omega
        · have hwrt : 4 + 2 * c.users.length + 1 = 5 + 2 * c.users.length := by omega
          rw [hlength, List.range_succ, List.map_append, List.map_singleton, ← h.ends]
          unfold Process.addUser
          rw [List.map_append, List.map_singleton, h.next, hwrt]
      confirm := by
        intro c i h
        refine ⟨?_, ?_⟩
        · simpa using h.next
        · rw [map_modify_of_eq (by simp), List.length_modify]
          exact h.ends }
  sock := fun _ _ h => ⟨h.next, h.ends⟩
  buf := fun _ _ h => ⟨h.next, h.ends⟩
  deactivate := by
    intro c i h
    refine ⟨?_, ?_⟩
    · simpa [deactivate] using h.next
    · unfold deactivate
      rw [map_modify_of_eq (by simp), List.length_modify]
      exact h.ends
  untilSock := fun _ _ _ h => ⟨h.next, h.ends⟩

/-- **The largest descriptor** goes by the number of the users. -/
theorem Process.Numbered.largestFd_eq {c : Process} (h : c.Numbered) :
    largestFd c.users = 3 + 2 * c.users.length := by
  unfold largestFd
  rw [h.ends]
  induction c.users.length with
  | zero => rfl
  | succ n ih =>
      rw [List.range_succ, List.map_append, List.foldl_append, ih,
        List.map_singleton, List.foldl_cons, List.foldl_nil]
      omega

/-! ## One iteration -/

section Iteration

variable {slack : Slack} {pid : ℕ → ℕ} {ready : List ℕ} {server typed : ReadResult}
    {pipe : ℕ → ReadResult}
  {l : Loop}

/-- **The client after an iteration** has the users from before, as they were, and those added are
active. -/
theorem from_iteration (hl : l.Sound pid) (hready : ∀ fd ∈ ready, fd < 4) :
    Process.From l.desk.client
    ((iteration slack pid ready server typed pipe).run l).2.desk.client := by
  have hkeeps : Eff.Keeps (Loop.Sound pid) (beforeInput slack pid ready server) :=
    keeps_sound_beforeInput slack pid hready
  have hsound := hkeeps l hl
  have hbefore : Process.From l.desk.client
      ((beforeInput slack pid ready server).run l).2.desk.client := by
    rw [client_beforeInput]
    cases received ready server with
    | none => exact hl.tidy.from_client
    | some b =>
        exact (keeps_from_chatRead l.desk.client slack b _ hl.tidy.from_client).withSocket
          l.stdineof
  rw [iteration_eq, Eff.run_bind]
  rcases hrun : (beforeInput slack pid ready server).run l with ⟨e | r, l₁⟩
  · rw [hrun] at hbefore
    exact hbefore
  rw [hrun] at hbefore hsound
  dsimp only [restOfIteration] at hbefore hsound ⊢
  split_ifs
  · exact hbefore
  · rw [client_inputPart]
    cases lineIn r.2 typed with
    | none => exact hbefore
    | some blk =>
        exact (keeps_from_chatInput l.desk.client slack blk _ hbefore).withSocket l₁.stdineof
  · -- no window is read from
    have hchildren : (anyChildrenReplied slack l₁.rset pipe (List.range l₁.desk.client.users.length)
        r.2).run l₁.desk.client = (.ok (), l₁.desk.client) :=
      run_anyChildrenReplied hsound.unwatched hsound.tidy.pipesApart pipe _ r.2
    rw [Eff.run_get_bind, run_onClient_bind_ok pid l₁ hchildren fun _ => rfl]
    exact hbefore

/-- One user is added at most. -/
theorem length_users_iteration (hc : ∀ u ∈ l.desk.client.users, 0 ∉ u.username) :
    ((iteration slack pid ready server typed pipe).run l).2.desk.client.users.length ≤
      l.desk.client.users.length + 1 := by
  have hafter : ∀ {call : Option Block} {c c' : Process}, c.NamesAfter call c' →
      c'.users.length ≤ c.users.length + 1 := by
    intro call c c' h
    have hlength : ∀ c : Process, c.names.length = c.users.length := fun c => List.length_map _
    rw [← hlength, ← hlength]
    rcases h with hsame | ⟨-, -, w, -, -, hadded⟩
    · rw [hsame]
      exact Nat.le_succ _
    · rw [hadded, List.length_append, List.length_singleton]
  rcases names_iteration slack pid ready server typed hc pipe with ⟨-, h⟩ | h
  · exact hafter h
  · exact hafter h

end Iteration

/-! ## A user that is created -/

section Created

variable {c c' : Process} (hfrom : Process.From c c') (hc : c.Numbered) (hc' : c'.Numbered)

include hfrom in
/-- Users that were not active stay so. -/
theorem inactive_take (hidle : ∀ u ∈ c.users, u.active = false) :
    ∀ u ∈ c'.users.take c.users.length, u.active = false := by
  intro u hu
  have hface : face u ∈ c.users.map face := by
    rw [← hfrom.grows.old, ← List.map_take]
    exact List.mem_map_of_mem hu
  obtain ⟨v, hv, heq⟩ := List.mem_map.mp hface
  obtain ⟨-, -, -, hactive⟩ : v.username = u.username ∧ v.rd = u.rd ∧ v.wrt = u.wrt ∧
      v.active = u.active := by
    simpa [face] using heq
  rw [← hactive, hidle v hv]

include hfrom hc' in
/-- The new user is active and has the next descriptors. -/
theorem exists_created (hlength : c'.users.length = c.users.length + 1) :
    ∃ u, c'.users = c'.users.take c.users.length ++ [u] ∧ u.active = true ∧
      u.rd = 4 + 2 * c.users.length ∧ u.wrt = 5 + 2 * c.users.length := by
  have hone : (c'.users.drop c.users.length).length = 1 := by
    rw [List.length_drop]
    omega
  obtain ⟨u, hu⟩ := List.length_eq_one_iff.mp hone
  have hends : (c'.users.map fun u => (u.rd, u.wrt))[c.users.length]? =
      some (4 + 2 * c.users.length, 5 + 2 * c.users.length) := by
    rw [hc'.ends, List.getElem?_map, List.getElem?_range (by omega), Option.map_some]
  have hget : c'.users[c.users.length]? = some u := by
    rw [← List.head?_drop, hu, List.head?_cons]
  rw [List.getElem?_map, hget, Option.map_some] at hends
  obtain ⟨hrd, hwrt⟩ := Prod.mk.inj (Option.some.inj hends)
  refine ⟨u, ?_, hfrom.grows.active (by rw [hu]; exact List.mem_singleton_self u), hrd, hwrt⟩
  rw [← hu, List.take_append_drop]

variable (hlength : c'.users.length ≤ c.users.length + 1)
include hfrom hc hc' hlength

/-- **The bound stays above** the descriptors. -/
theorem lt_of_setFdForCreated {m n : ℕ} (hm : largestFd c.users < m)
    (h : setFdForCreated c.users c'.users m = .ok n) : largestFd c'.users < n := by
  rw [hc.largestFd_eq] at hm
  rw [hc'.largestFd_eq]
  unfold setFdForCreated at h
  split_ifs at h with hcreated
  · obtain ⟨u, husers, hactive, -, hwrt⟩ := exists_created hfrom hc' (by omega)
    have hu : u ∈ c'.users := by
      rw [husers]
      exact List.mem_append_right _ (List.mem_singleton_self u)
    have habove := ((setFdForChilds_spec h).2 u hu hactive).2
    omega
  · obtain rfl := Except.ok.inj h
    have hle := hfrom.grows.length_le
    omega

/-- A bound that is tight stays so when the first active user is created. -/
theorem eq_of_setFdForCreated (hidle : ∀ u ∈ c.users, u.active = false) {n : ℕ}
    (h : setFdForCreated c.users c'.users (largestFd c.users + 1) = .ok n) :
    n = largestFd c'.users + 1 := by
  rw [hc.largestFd_eq] at h
  rw [hc'.largestFd_eq]
  unfold setFdForCreated at h
  split_ifs at h with hcreated
  · obtain ⟨u, husers, hactive, hrd, hwrt⟩ := exists_created hfrom hc' (by omega)
    rw [husers, setFdForChilds_append_of_inactive (inactive_take hfrom hidle),
      setFdForChilds_cons_active hactive] at h
    obtain ⟨m₁, h₁, h⟩ := exists_of_bind_eq_ok h
    obtain ⟨m₂, h₂, h⟩ := exists_of_bind_eq_ok h
    obtain ⟨-, rfl⟩ := succInt_eq_ok_iff.mp h₁
    obtain ⟨-, rfl⟩ := succInt_eq_ok_iff.mp h₂
    obtain rfl := Except.ok.inj h
    omega
  · obtain rfl := Except.ok.inj h
    have hle := hfrom.grows.length_le
    omega

end Created

/-! ## Runs -/

/-- A call of `set_fd_for_childs` in front of `select`. -/
structure SelectCall where
  users : List UserStruct
  /-- The bound that `select` is given then. -/
  nfds : Except Fault ℕ

/-- What a call is in a run: the descriptors go by the number of the users, and the bound was above
them. -/
structure SelectCall.Sound (call : SelectCall) : Prop where
  largestFd_eq : largestFd call.users = 3 + 2 * call.users.length
  raised : ∃ m, largestFd call.users < m ∧ call.nfds = setFdForChilds call.users m

/-- A run of `regular_chat`, with the bound. -/
structure BoundRun where
  run : DeskRun
  maxfdpl : Except Fault ℕ
  /-- The calls so far. -/
  calls : List SelectCall

namespace BoundRun

/-- The client of a run. -/
def client (s : BoundRun) : Process := s.run.loop.desk.client

/-- The steps of a run. Where the bound overflows in front of `select`, the run ends.
Source: `client.c` `regular_chat` (lines 211–220) -/
def Step (slack : Slack) (s : BoundRun) (e : DeskEvent) (s' : BoundRun) : Prop :=
  match e with
  | .iterates .. => s.run.ended = false ∧ ∃ maxfdpl, s.maxfdpl = .ok maxfdpl ∧
      s'.calls = s.calls ++ [⟨s.client.users, setFdForChilds s.client.users maxfdpl⟩] ∧
      match setFdForChilds s.client.users maxfdpl with
      | .error f => s'.run = { s.run with ended := true } ∧ s'.maxfdpl = .error f
      | .ok nfds => s.run.Step slack e s'.run ∧
          s'.maxfdpl = setFdForCreated s.client.users s'.client.users nfds
  | _ => s.run.Step slack e s'.run ∧ s'.maxfdpl = s.maxfdpl ∧ s'.calls = s.calls

/-- The start of `regular_chat`; something may have been read already.
Source: `client.c` `regular_chat` (line 209) -/
def Initial (s : BoundRun) : Prop :=
  ∃ buf, s = ⟨⟨⟨⟨Process.initial.withBuf buf, [], []⟩, [], false, []⟩, false⟩,
    .ok (max stdinFd sockFd + 1), []⟩

/-- The states that the runs reach. -/
abbrev Reached (slack : Slack) : BoundRun → Prop := Reachable Initial (Step slack)

/-- **The bound is tight**: every `select` is given one more than the largest descriptor, and so the
same as any other with as many users. -/
structure Tight (s : BoundRun) : Prop where
  tight : ∀ call ∈ s.calls, call.nfds = .ok (largestFd call.users + 1)
  steady : ∀ a ∈ s.calls, ∀ b ∈ s.calls, a.users.length = b.users.length → a.nfds = b.nfds

/-- No user is active in a call. -/
def NoneActive (s : BoundRun) : Prop := ∀ call ∈ s.calls, ∀ u ∈ call.users, u.active = false

/-! ## The invariant -/

/-- What holds in a run. -/
structure Holds (s : BoundRun) : Prop where
  run : s.run.Holds
  numbered : s.client.Numbered
  calls : ∀ call ∈ s.calls, call.Sound
  above : ∀ m, s.maxfdpl = .ok m → largestFd s.client.users < m
  idle : s.NoneActive → (∀ call ∈ s.calls, call.nfds = .ok (largestFd call.users + 1)) ∧
    ∀ m, s.maxfdpl = .ok m → m = largestFd s.client.users + 1

/-- A step that leaves the descriptors and the bound. -/
theorem Holds.of_ends {s s' : BoundRun} (h : s.Holds) (hrun : s'.run.Holds)
    (hnumbered : s'.client.Numbered)
    (hends : s'.client.users.map (fun u => (u.rd, u.wrt)) = s.client.users.map fun u =>
      (u.rd, u.wrt))
    (hmaxfdpl : s'.maxfdpl = s.maxfdpl) (hcalls : s'.calls = s.calls) : s'.Holds := by
  have hlargest : largestFd s'.client.users = largestFd s.client.users := by
    unfold largestFd
    rw [hends]
  refine ⟨hrun, hnumbered, ?_, ?_, ?_⟩
  · rw [hcalls]
    exact h.calls
  · rw [hmaxfdpl, hlargest]
    exact h.above
  · intro hnone
    unfold NoneActive at hnone
    rw [hcalls] at hnone ⊢
    rw [hmaxfdpl, hlargest]
    exact h.idle hnone

/-- A call with the users of a run. -/
theorem Holds.call {s : BoundRun} (h : s.Holds) {m : ℕ} (hm : s.maxfdpl = .ok m) :
    SelectCall.Sound ⟨s.client.users, setFdForChilds s.client.users m⟩ :=
  ⟨h.numbered.largestFd_eq, m, h.above m hm, rfl⟩

/-- Where no user is active, the call does nothing. -/
theorem Holds.idle_call {s : BoundRun} (h : s.Holds) {m : ℕ} (hm : s.maxfdpl = .ok m)
    (hnone : ∀ call ∈ s.calls ++ [⟨s.client.users, setFdForChilds s.client.users m⟩],
      ∀ u ∈ call.users, u.active = false) :
    (∀ u ∈ s.client.users, u.active = false) ∧ m = largestFd s.client.users + 1 ∧
      ∀ call ∈ s.calls ++ [⟨s.client.users, setFdForChilds s.client.users m⟩],
        call.nfds = .ok (largestFd call.users + 1) := by
  rw [List.forall_mem_append, List.forall_mem_singleton] at hnone
  obtain ⟨hcalls, hexact⟩ := h.idle hnone.1
  obtain rfl := hexact m hm
  refine ⟨hnone.2, rfl, ?_⟩
  rw [List.forall_mem_append, List.forall_mem_singleton]
  exact ⟨hcalls, setFdForChilds_of_inactive hnone.2 _⟩

/-- An iteration adds one user at most, at the end. -/
theorem Holds.grows {slack : Slack} {s s' : BoundRun} {ready : List ℕ} {server typed : ReadResult}
    {pipe : ℕ → ReadResult} {pid : ℕ → ℕ} (h : s.Holds)
    (hrun : s.run.Step slack (.iterates ready server typed pipe pid) s'.run) :
    Process.From s.client s'.client ∧ s'.client.users.length ≤ s.client.users.length + 1 := by
  obtain ⟨-, hready, -, -, hforks, hafter⟩ := hrun
  have hclient : s'.client =
      ((iteration slack pid ready server typed pipe).run s.run.loop).2.desk.client := by
    unfold BoundRun.client
    rw [hafter]
  rw [hclient]
  constructor
  · exact from_iteration ⟨h.run.tidy, hforks.forking, h.run.unwatched, h.run.filings⟩
      fun fd hfd => h.run.unwatched.watched fd (hready fd hfd)
  · exact length_users_iteration fun u hu => (h.run.tidy.wellFormed.isWord hu).zero_notMem

/-- **An iteration.** -/
theorem Holds.iterates {slack : Slack} {s s' : BoundRun} {ready : List ℕ}
    {server typed : ReadResult} {pipe : ℕ → ReadResult} {pid : ℕ → ℕ} (h : s.Holds)
    (hst : s.Step slack (.iterates ready server typed pipe pid) s') : s'.Holds := by
  obtain ⟨-, m, hm, hcalls, hselect⟩ := hst
  have hall : ∀ call ∈ s'.calls, call.Sound := by
    rw [hcalls, List.forall_mem_append, List.forall_mem_singleton]
    exact ⟨h.calls, h.call hm⟩
  have hidle := h.idle_call hm
  rw [← hcalls] at hidle
  cases hset : setFdForChilds s.client.users m with
  | error f =>
      rw [hset] at hselect
      obtain ⟨hrun, hmaxfdpl⟩ := hselect
      have hclient : s'.client = s.client := by
        unfold BoundRun.client
        rw [hrun]
      refine ⟨?_, hclient ▸ h.numbered, hall, ?_, fun hnone => ⟨(hidle hnone).2.2, ?_⟩⟩
      · rw [hrun]
        exact ⟨h.run.tidy, h.run.unwatched, h.run.filings⟩
      all_goals
        intro n hn
        rw [hmaxfdpl] at hn
        cases hn
  | ok nfds =>
      rw [hset] at hselect
      obtain ⟨hrun, hmaxfdpl⟩ := hselect
      have hnumbered : s'.client.Numbered := steady_numbered.step h.numbered hrun
      obtain ⟨hfrom, hlength⟩ := h.grows hrun
      have hraised : m ≤ nfds := by
        have hspec := (setFdForChilds_spec hset).1
        omega
      refine ⟨h.run.step hrun, hnumbered, hall, fun n hn => ?_, fun hnone => ?_⟩
      · rw [hmaxfdpl] at hn
        exact lt_of_setFdForCreated hfrom h.numbered hnumbered hlength
          (lt_of_lt_of_le (h.above m hm) hraised) hn
      · obtain ⟨hinactive, rfl, hexact⟩ := hidle hnone
        refine ⟨hexact, fun n hn => ?_⟩
        rw [setFdForChilds_of_inactive hinactive] at hset
        obtain rfl := Except.ok.inj hset
        rw [hmaxfdpl] at hn
        exact eq_of_setFdForCreated hfrom h.numbered hnumbered hlength hinactive hn

/-- **One step.** -/
theorem Holds.step {slack : Slack} {s s' : BoundRun} {e : DeskEvent} (h : s.Holds)
    (hst : s.Step slack e s') : s'.Holds := by
  cases e with
  | iterates ready server typed pipe pid => exact h.iterates hst
  | exits n =>
      obtain ⟨hrun, hmaxfdpl, hcalls⟩ := hst
      refine h.of_ends (h.run.step hrun) (steady_numbered.step h.numbered hrun) ?_ hmaxfdpl hcalls
      unfold BoundRun.client
      rw [hrun]
      rfl
  | sigchild pids =>
      obtain ⟨hrun, hmaxfdpl, hcalls⟩ := hst
      refine h.of_ends (h.run.step hrun) (steady_numbered.step h.numbered hrun) ?_ hmaxfdpl hcalls
      obtain ⟨-, -, hok, herror⟩ := hrun
      unfold BoundRun.client
      cases hd : sigchildHandler s.run.loop.desk pids with
      | ok d =>
          have hends := keeps_sigchildHandler
            (I := fun c => c.users.map (fun u => (u.rd, u.wrt)) = s.client.users.map fun u =>
              (u.rd, u.wrt))
            (fun c i h => (map_modify_of_eq (by simp) c.users i).trans h) hd rfl
          rw [hok d hd]
          exact hends
      | error f => rw [herror f hd]

/-- The invariant holds at the start. -/
theorem Initial.holds {s : BoundRun} (h : s.Initial) : s.Holds := by
  obtain ⟨buf, rfl⟩ := h
  refine ⟨DeskRun.holds_withBuf buf, ⟨rfl, rfl⟩, ?_, ?_, fun _ => ⟨?_, ?_⟩⟩
  · intro call hcall
    cases hcall
  · intro m hm
    obtain rfl := Except.ok.inj hm
    exact Nat.lt_succ_self _
  · intro call hcall
    cases hcall
  · intro m hm
    exact (Except.ok.inj hm).symm

/-- The invariant holds in every run. -/
theorem Reached.holds {slack : Slack} {s : BoundRun} (h : Reached slack s) : s.Holds :=
  h.invariant (fun _ hinit => hinit.holds) fun _ _ _ hs _ hst => hs.step hst

/-- An active user makes the bound too large. -/
theorem Holds.tight_iff_noneActive {s : BoundRun} (h : s.Holds) : s.Tight ↔ s.NoneActive := by
  constructor
  · intro htight call hcall u hu
    by_contra hactive
    obtain ⟨m, hm, hnfds⟩ := (h.calls call hcall).raised
    have hspec := (setFdForChilds_spec (hnfds.symm.trans (htight.tight call hcall))).1
    have hcount : 0 < call.users.countP (·.active) :=
      List.countP_pos_iff.mpr ⟨u, hu, by simpa using hactive⟩
    omega
  · intro hnone
    have hexact := (h.idle hnone).1
    refine ⟨hexact, fun a ha b hb hlength => ?_⟩
    rw [hexact a ha, hexact b hb, (h.calls a ha).largestFd_eq, (h.calls b hb).largestFd_eq, hlength]

/-- **The bound**: in every state that a run reaches, whatever arrives, is typed or is closed,
`select` has always been given one more than the largest descriptor iff no user was active in any of
its calls. -/
theorem tight_iff (slack : Slack) {s : BoundRun} (h : Reached slack s) : s.Tight ↔ s.NoneActive :=
  h.holds.tight_iff_noneActive

/-- The state after an iteration in which nothing is ready. -/
def passed (s : BoundRun) (slack : Slack) (nfds : ℕ) (pid : ℕ → ℕ) : BoundRun where
  run := ⟨((iteration slack pid [] .failed .failed fun _ => .failed).run s.run.loop).2,
    endsLoop ((iteration slack pid [] .failed .failed fun _ => .failed).run s.run.loop).1⟩
  maxfdpl := setFdForCreated s.client.users
    ((iteration slack pid [] .failed .failed fun _ => .failed).run s.run.loop).2.desk.client.users
      nfds
  calls := s.calls ++ [⟨s.client.users, .ok nfds⟩]

/-- An iteration in which `select` fails is a step. -/
theorem step_passed {s : BoundRun} (slack : Slack) (hended : s.run.ended = false) {m nfds : ℕ}
    (hm : s.maxfdpl = .ok m) (hset : setFdForChilds s.client.users m = .ok nfds) {pid : ℕ → ℕ}
    (hpid : Forks pid s.run.loop.desk) :
    s.Step slack (.iterates [] .failed .failed (fun _ => .failed) pid)
      (s.passed slack nfds pid) := by
  refine ⟨hended, m, hm, by rw [hset]; rfl, ?_⟩
  rw [hset]
  exact ⟨⟨hended, by simp, trivial, trivial, hpid, rfl⟩, rfl⟩

/-- The client when somebody has written for the first time. -/
private def shown : BoundRun := ⟨windowOpen, .ok 6, [⟨[], .ok 4⟩]⟩

private theorem reached_shown : Reached (fun _ => 1) shown := by
  have hinitial : Initial ⟨quiet, .ok 4, []⟩ := ⟨.of [], rfl⟩
  have hstep : Step (fun _ => 1) ⟨quiet, .ok 4, []⟩ hello shown :=
    ⟨rfl, 4, rfl, rfl, step_windowOpen, rfl⟩
  exact Reachable.next (.start hinitial) hstep

/-- The client when the window was closed. -/
private def closed : BoundRun := ⟨windowClosed, .ok 6, [⟨[], .ok 4⟩]⟩

private theorem reached_closed : Reached (fun _ => 1) closed := by
  have hexited : shown.Step (fun _ => 1) (.exits 5) ⟨windowExited, .ok 6, [⟨[], .ok 4⟩]⟩ :=
    ⟨step_windowExited, rfl, rfl⟩
  have hclosed : Step (fun _ => 1) ⟨windowExited, .ok 6, [⟨[], .ok 4⟩]⟩ (.sigchild [5]) closed :=
    ⟨step_windowClosed, rfl, rfl⟩
  exact Reachable.next (Reachable.next reached_shown hexited) hclosed

/-- A window that is closed before the next call leaves the bound as it is. -/
theorem tight_iff_closed : ∃ s :
    BoundRun, Reached (fun _ => 1) s ∧ s.calls.map SelectCall.nfds = [.ok 4, .ok 6] ∧
    s.Tight := by
  have hforks : Forks id closed.run.loop.desk := ⟨fun _ _ h => h, by simp [closed, windowClosed]⟩
  have hreached : Reached (fun _ => 1) (closed.passed (fun _ => 1) 6 id) :=
    Reachable.next reached_closed (step_passed (fun _ => 1) rfl rfl rfl hforks)
  refine ⟨closed.passed (fun _ => 1) 6 id, hreached, rfl, (tight_iff (fun _ => 1) hreached).mpr ?_⟩
  show ∀ call ∈ closed.calls ++ [⟨closed.client.users, .ok 6⟩], ∀ u ∈ call.users, u.active = false
  simp [closed, BoundRun.client, windowClosed, greeted]

/-- An open window, with descriptors 4 and 5, makes a bound of 8 in the next call. -/
theorem not_tight : ¬∀ slack s, Reached slack s → s.Tight := by
  intro hall
  have hforks : Forks (· + 6) shown.run.loop.desk := ⟨fun a b h => by simpa using h, ?_⟩
  · have hreached : Reached (fun _ => 1) (shown.passed (fun _ => 1) 8 (· + 6)) :=
      Reachable.next reached_shown (step_passed (fun _ => 1) rfl rfl rfl hforks)
    have htight := (hall (fun _ => 1) _ hreached).tight ⟨shown.client.users, .ok 8⟩
      (List.mem_append_right _ (List.mem_singleton_self _))
    cases htight
  · simp [shown, windowOpen]

end BoundRun

end ME2U.Client
