import ME2U.Client.Windows

/-!
# Whose window is whose

Every user in the list has one window, at the other end of its pipe, and a user whose window has not
exited is active. Handlers add users and windows at the end; a window that exits is found by its id
when the signal comes, and its user is marked as inactive.

* `Process.From`: what any handler leaves alone in the client.
* `Desk.Tidy`: which window is whose, and that an inactive user has no open window.
* `Desk.Tidy.withClient`, `Desk.Tidy.exit`, `Desk.Tidy.sigchild`: handlers, exits and signals keep
  it.
* `Steady.step`: a predicate on the client that every step of a run keeps.
-/

namespace ME2U.Client

/-! ## What the client keeps -/

/-- A user without its counts. -/
def face (u : UserStruct) : Bytes × ℕ × ℕ × Bool := (u.username, u.rd, u.wrt, u.active)

/-- The users of `c` are still there, and those added are active. -/
structure Grows (c c' : Process) : Prop where
  old : (c'.users.map face).take c.users.length = c.users.map face
  new : ∀ f ∈ (c'.users.map face).drop c.users.length, f.2.2.2 = true

/-- Nothing is lost where nothing happens. -/
theorem Grows.refl (c : Process) : Grows c c := by
  have hlen : (c.users.map face).length = c.users.length := List.length_map face
  refine ⟨List.take_of_length_le hlen.le, ?_⟩
  rw [List.drop_eq_nil_of_le hlen.le]
  simp

/-- Users do not get fewer. -/
theorem Grows.length_le {c c' : Process} (h : Grows c c') : c.users.length ≤ c'.users.length := by
  have hlen := congrArg List.length h.old
  rw [List.length_take, List.length_map, List.length_map] at hlen
  omega

/-- No step of the chat loses a user. -/
theorem stable_grows (c : Process) : Stable (Grows c) where
  wrote := fun _ _ _ _ h => ⟨h.old, h.new⟩
  addUser := by
    intro c' w _ h
    have hle : c.users.length ≤ (c'.users.map face).length := by
      rw [List.length_map]
      exact h.length_le
    refine ⟨?_, ?_⟩
    · unfold Process.addUser
      rw [List.map_append, List.take_append_of_le_length hle]
      exact h.old
    · unfold Process.addUser
      rw [List.map_append, List.drop_append_of_le_length hle, List.forall_mem_append]
      exact ⟨h.new, by simp [face]⟩
  confirm := by
    intro c' i h
    refine ⟨?_, ?_⟩ <;> rw [map_modify_of_eq (by simp [face])]
    · exact h.old
    · exact h.new

/-- No pipe is the terminal or the socket. -/
structure Process.PipesApart (c : Process) : Prop where
  next : 4 ≤ c.nextFd
  ends : ∀ f ∈ c.users.map fun u => (u.rd, u.wrt), 4 ≤ f.1 ∧ 4 ≤ f.2

/-- No step of the chat joins two pipes. -/
theorem stable_pipesApart : Stable Process.PipesApart where
  wrote := fun _ _ _ _ h => ⟨h.next, h.ends⟩
  addUser := by
    intro c w _ h
    have hnext := h.next
    refine ⟨Nat.le_add_right_of_le hnext, ?_⟩
    unfold Process.addUser
    rw [List.map_append, List.forall_mem_append]
    refine ⟨h.ends, ?_⟩
    simp only [List.map_cons, List.map_nil, List.mem_singleton, forall_eq]
    omega
  confirm := by
    intro c i h
    refine ⟨h.next, ?_⟩
    rw [map_modify_of_eq (by simp)]
    exact h.ends

/-- What the client keeps while it works from `c` on. -/
structure Process.From (c c' : Process) : Prop where
  grows : Grows c c'
  wellFormed : c'.WellFormed
  pipesApart : c'.PipesApart

/-- What a process has come from is stable. -/
theorem stable_from (c : Process) : Stable (Process.From c) where
  wrote := fun c' fd bs hfd h => ⟨(stable_grows c).wrote c' fd bs hfd h.1, h.2.wrote fd bs,
    stable_pipesApart.wrote c' fd bs hfd h.3⟩
  addUser := fun c' w hw h => ⟨(stable_grows c).addUser c' w hw h.1, h.2.addUser hw,
    stable_pipesApart.addUser c' w hw h.3⟩
  confirm := fun c' i h => ⟨(stable_grows c).confirm c' i h.1,
    Process.stable_wellFormed.confirm c' i h.2, stable_pipesApart.confirm c' i h.3⟩

/-- A write to the server adds no user. -/
theorem Process.From.sock {c c' : Process} (h : Process.From c c') (bs : Bytes) :
    Process.From c { c' with wrote := c'.wrote ++ [(.sock, bs)] } :=
  ⟨⟨h.1.old, h.1.new⟩, h.2.wrote _ _, ⟨h.3.next, h.3.ends⟩⟩

/-- The receive buffer has no users. -/
theorem Process.From.withBuf {c c' : Process} (h : Process.From c c') (b : RecvBuf) :
    Process.From c (c'.withBuf b) :=
  ⟨⟨h.1.old, h.1.new⟩, ⟨h.2.words, h.2.pipes, h.2.handedOut⟩, ⟨h.3.next, h.3.ends⟩⟩

/-- A write that ends the process leaves the users as they are. -/
theorem Process.From.untilSock {c c' : Process} (h : Process.From c c') (c₁ : Process) :
    Process.From c (c₁.untilSock c') :=
  ⟨⟨h.1.old, h.1.new⟩, ⟨h.2.words, h.2.pipes, h.2.handedOut⟩, ⟨h.3.next, h.3.ends⟩⟩

/-- An end by `SIGPIPE` keeps it too. -/
theorem Process.From.withSocket {α : Type} {m : Chat α} {c c' : Process}
    (h : Process.From c (m.run c').2) (shut : Bool) :
    Process.From c ((withSocket shut m).run c').2 := by
  rcases withSocket_cases shut m c' with hsame | hpipe
  · rwa [hsame]
  · rw [hpipe]
    exact h.untilSock c'

/-- A read comes from the state before it. -/
theorem keeps_from_chatRead (c : Process) (slack : Slack) (b : Bytes) :
    Eff.Keeps (Process.From c) (chatRead slack b) :=
  (stable_from c).keeps_chatRead (fun _ bs h => h.sock bs) (fun _ s h => h.withBuf s) slack b

/-- A line in any `read_buf`. -/
theorem keeps_from_chatInput (c : Process) (slack : Slack) (blk : Block) :
    Eff.Keeps (Process.From c) (chatInput slack blk) :=
  (stable_from c).keeps_chatInput_block slack (fun _ _ _ h => h.sock _) fun newStr _ _ h =>
    h.sock newStr

/-! ## Whose window is whose -/

/-- The windows are those of the users, in order; the ids in use differ; and a user whose window has
not exited is active. -/
structure Desk.Tidy (d : Desk) : Prop where
  wellFormed : d.client.WellFormed
  pipesApart : d.client.PipesApart
  pids : d.pids = d.windows.map Window.pid
  owned : d.windows.map (fun win => (win.title, win.rd, win.wrt)) =
    d.client.users.map fun u => (u.username, u.rd, u.wrt)
  exited : ∀ win ∈ d.windows, win.reaped = true → win.exited = true
  distinct : ∀ a ∈ d.windows, ∀ b ∈ d.windows, a.reaped = false → b.reaped = false →
    a.pid = b.pid → a.wrt = b.wrt
  active : ∀ u ∈ d.client.users, ∀ win ∈ d.windows, win.wrt = u.wrt → win.exited = false →
    u.active = true

/-- The windows have the write ends of the users. -/
theorem Desk.Tidy.wrts {d : Desk} (h : d.Tidy) :
    d.windows.map Window.wrt = d.client.users.map UserStruct.wrt := by
  have hmap := congrArg (List.map fun x : Bytes × ℕ × ℕ => x.2.2) h.owned
  rwa [List.map_map, List.map_map] at hmap

/-- A window is known by its pipe. -/
theorem Desk.Tidy.eq_of_wrt {d : Desk} (h : d.Tidy) {a b : Window} (ha : a ∈ d.windows)
    (hb : b ∈ d.windows) (heq : a.wrt = b.wrt) : a = b := by
  have hnodup : (d.windows.map Window.wrt).Nodup := h.wrts ▸ h.wellFormed.pipes
  exact List.inj_on_of_nodup_map hnodup ha hb heq

/-- Every user has a window of its name at its pipe. -/
theorem Desk.Tidy.exists_window {d : Desk} (h : d.Tidy) {u : UserStruct} (hu : u ∈ d.client.users) :
    ∃ win ∈ d.windows, win.title = u.username ∧ win.wrt = u.wrt := by
  have hmem : (u.username, u.rd, u.wrt) ∈ d.windows.map fun win =>
      (win.title, win.rd, win.wrt) := by
    rw [h.owned]
    exact List.mem_map_of_mem hu
  obtain ⟨win, hwin, heq⟩ := List.mem_map.mp hmem
  obtain ⟨htitle, -, hwrt⟩ : win.title = u.username ∧ win.rd = u.rd ∧ win.wrt = u.wrt := by
    simpa using heq
  exact ⟨win, hwin, htitle, hwrt⟩

/-- What `fork` returns in an iteration is new, or is the id of the window at that pipe. -/
structure Desk.Forking (pid : ℕ → ℕ) (d : Desk) : Prop where
  injective : Function.Injective pid
  unused : ∀ win ∈ d.windows, win.reaped = false → ∀ n, pid n = win.pid → n = win.wrt

/-- What `fork` promises for the new windows. -/
theorem Forks.forking {pid : ℕ → ℕ} {d : Desk} (h : Forks pid d) : d.Forking pid :=
  ⟨h.injective, fun win hwin hreaped n heq => absurd heq (h.unused win hwin hreaped n)⟩

section WithClient

variable {pid : ℕ → ℕ} {d : Desk} {c : Process}

/-- The windows are the old ones and one for each new user. -/
theorem mem_windows_withClient {win : Window} :
    win ∈ (d.withClient pid c).windows ↔
      win ∈ d.windows ∨ ∃ u ∈ c.users.drop d.client.users.length, windowFor pid u = win := by
  unfold Desk.withClient
  rw [List.mem_append, List.mem_map]

/-- A user that was added is active. -/
theorem Grows.active {c c' : Process} (h : Grows c c') {u : UserStruct}
    (hu : u ∈ c'.users.drop c.users.length) : u.active = true := by
  have hface : face u ∈ (c'.users.map face).drop c.users.length := by
    rw [← List.map_drop]
    exact List.mem_map_of_mem hu
  exact h.new _ hface

/-- A user that was there has the same face, and one that was not is active. -/
theorem Grows.cases {c c' : Process} (h : Grows c c') {u : UserStruct} (hu : u ∈ c'.users) :
    (∃ v ∈ c.users, face v = face u) ∨ u.active = true := by
  rw [← List.take_append_drop c.users.length c'.users, List.mem_append] at hu
  rcases hu with hu | hu
  · left
    have hface : face u ∈ c.users.map face := by
      rw [← h.old, ← List.map_take]
      exact List.mem_map_of_mem hu
    exact List.mem_map.mp hface
  · exact .inr (h.active hu)

/-- **A desk stays tidy** while the client works and starts windows. -/
theorem Desk.Tidy.withClient (h : d.Tidy) (hpid : d.Forking pid) (hc : Process.From d.client c) :
    (d.withClient pid c).Tidy where
  wellFormed := hc.wellFormed
  pipesApart := hc.pipesApart
  pids := by
    unfold Desk.withClient
    rw [List.map_append, List.map_map, h.pids]
    rfl
  owned := by
    have hold : d.windows.map (fun win => (win.title, win.rd, win.wrt)) =
        (c.users.take d.client.users.length).map fun u => (u.username, u.rd, u.wrt) := by
      have hfaces := congrArg (List.map fun f : Bytes × ℕ × ℕ × Bool => (f.1, f.2.1, f.2.2.1))
        hc.grows.old
      rw [← List.map_take, List.map_map, List.map_map] at hfaces
      exact h.owned.trans hfaces.symm
    unfold Desk.withClient
    rw [List.map_append, hold, List.map_map]
    show _ = c.users.map _
    conv_rhs => rw [← List.take_append_drop d.client.users.length c.users, List.map_append]
    rfl
  exited := by
    intro win hwin hreaped
    rcases mem_windows_withClient.mp hwin with hwin | ⟨u, -, rfl⟩
    · exact h.exited win hwin hreaped
    · cases hreaped
  distinct := by
    intro a ha b hb hra hrb heq
    rcases mem_windows_withClient.mp ha with ha | ⟨u, -, rfl⟩
    · rcases mem_windows_withClient.mp hb with hb | ⟨v, -, rfl⟩
      · exact h.distinct a ha b hb hra hrb heq
      · exact (hpid.unused a ha hra _ heq.symm).symm
    · rcases mem_windows_withClient.mp hb with hb | ⟨v, -, rfl⟩
      · exact hpid.unused b hb hrb _ heq
      · exact hpid.injective heq
  active := by
    intro u hu win hwin hwrt hopen
    rcases hc.grows.cases hu with ⟨v, hv, hface⟩ | hactive
    · obtain ⟨-, -, hvw, hva⟩ : v.username = u.username ∧ v.rd = u.rd ∧ v.wrt = u.wrt ∧
          v.active = u.active := by
        simpa [face] using hface
      rcases mem_windows_withClient.mp hwin with hwin | ⟨u', hu', rfl⟩
      · rw [← hva]
        exact h.active v hv win hwin (hwrt.trans hvw.symm) hopen
      · -- two users with one pipe are the same
        obtain rfl : u' = u := hc.wellFormed.eq_of_wrt (List.mem_of_mem_drop hu') hu hwrt
        exact hc.grows.active hu'
    · exact hactive

/-- The windows started in an iteration have the ids of their pipes. -/
theorem Desk.Forking.withClient (hpid : d.Forking pid) : (d.withClient pid c).Forking pid := by
  refine ⟨hpid.injective, fun win hwin hreaped n heq => ?_⟩
  rcases mem_windows_withClient.mp hwin with hwin | ⟨u, -, rfl⟩
  · exact hpid.unused win hwin hreaped n heq
  · exact hpid.injective heq

end WithClient

/-- What a desk knows of its client does not depend on what was read or written. -/
theorem Desk.Tidy.withBuf {d : Desk} (h : d.Tidy) (s : RecvBuf) :
    ({ d with client := d.client.withBuf s } : Desk).Tidy :=
  ⟨⟨h.1.words, h.1.pipes, h.1.handedOut⟩, ⟨h.2.next, h.2.ends⟩, h.pids, h.owned,
    h.exited, h.distinct, h.active⟩

/-- A client comes from itself. -/
theorem Desk.Tidy.from_client {d : Desk} (h : d.Tidy) : Process.From d.client d.client :=
  ⟨Grows.refl d.client, h.wellFormed, h.pipesApart⟩

/-! ## Windows that are closed -/

/-- A window that exits leaves everything else in order. -/
theorem Desk.Tidy.exit {d : Desk} (h : d.Tidy) (n : ℕ) : (d.exit n).Tidy where
  wellFormed := h.wellFormed
  pipesApart := h.pipesApart
  pids := by
    rw [Desk.exit, List.map_map]
    exact h.pids
  owned := by
    rw [Desk.exit, List.map_map]
    exact h.owned
  exited := by
    intro win hwin hreaped
    obtain ⟨w, hw, rfl⟩ := List.mem_map.mp hwin
    simp [h.exited w hw hreaped]
  distinct := by
    intro a ha b hb hra hrb heq
    obtain ⟨a₀, ha₀, rfl⟩ := List.mem_map.mp ha
    obtain ⟨b₀, hb₀, rfl⟩ := List.mem_map.mp hb
    exact h.distinct a₀ ha₀ b₀ hb₀ hra hrb heq
  active := by
    intro u hu win hwin hwrt hopen
    obtain ⟨w, hw, rfl⟩ := List.mem_map.mp hwin
    exact h.active u hu w hw hwrt (Bool.or_eq_false_iff.mp hopen).1

/-- So does `waitpid`. -/
theorem Desk.Tidy.reap {d : Desk} (h : d.Tidy) : d.reap.Tidy where
  wellFormed := h.wellFormed
  pipesApart := h.pipesApart
  pids := by
    rw [Desk.reap, List.map_map]
    exact h.pids
  owned := by
    rw [Desk.reap, List.map_map]
    exact h.owned
  exited := by
    intro win hwin hreaped
    obtain ⟨w, hw, rfl⟩ := List.mem_map.mp hwin
    rcases Bool.or_eq_true_iff.mp hreaped with hold | hnew
    · exact h.exited w hw hold
    · exact hnew
  distinct := by
    intro a ha b hb hra hrb heq
    obtain ⟨a₀, ha₀, rfl⟩ := List.mem_map.mp ha
    obtain ⟨b₀, hb₀, rfl⟩ := List.mem_map.mp hb
    exact h.distinct a₀ ha₀ b₀ hb₀ (Bool.or_eq_false_iff.mp hra).1
      (Bool.or_eq_false_iff.mp hrb).1 heq
  active := by
    intro u hu win hwin hwrt hopen
    obtain ⟨w, hw, rfl⟩ := List.mem_map.mp hwin
    exact h.active u hu w hw hwrt hopen

/-- A user may be marked as inactive whose window has exited. -/
theorem Desk.Tidy.deactivate {d : Desk} (h : d.Tidy) {i : ℕ}
    (hexited : ∀ u, d.client.users[i]? = some u → ∀ win ∈ d.windows, win.wrt = u.wrt →
      win.exited = true) :
    ({ d with client := deactivate i d.client } : Desk).Tidy where
  wellFormed := by
    refine ⟨?_, ?_, ?_⟩ <;> rw [Client.deactivate, map_modify_of_eq (by simp)]
    · exact h.wellFormed.words
    · exact h.wellFormed.pipes
    · exact h.wellFormed.handedOut
  pipesApart := by
    refine ⟨h.pipesApart.next, ?_⟩
    rw [Client.deactivate, map_modify_of_eq (by simp)]
    exact h.pipesApart.ends
  pids := h.pids
  owned := by
    rw [Client.deactivate, map_modify_of_eq (by simp)]
    exact h.owned
  exited := h.exited
  distinct := h.distinct
  active := by
    intro u hu win hwin hwrt hopen
    obtain ⟨j, hj⟩ := List.mem_iff_getElem?.mp hu
    unfold Client.deactivate at hj
    rw [List.getElem?_modify] at hj
    obtain ⟨v, hv, hvu⟩ := Option.map_eq_some_iff.mp hj
    by_cases hij : i = j
    · subst hij
      rw [if_pos rfl] at hvu
      have hwv : win.wrt = v.wrt := by rw [hwrt, ← hvu]
      rw [hexited v hv win hwin hwv] at hopen
      cases hopen
    · rw [if_neg hij] at hvu
      obtain rfl : v = u := hvu
      exact h.active v (List.mem_of_getElem? hv) win hwin hwrt hopen

/-- The user with the id of a window that `waitpid` returns has a window that has exited. -/
theorem Desk.Tidy.exited_of_findUserPid {d : Desk} (h : d.Tidy) {z : Window} (hz : z ∈ d.windows)
    (hzexited : z.exited = true) (hzreaped : z.reaped = false) {i : ℕ}
    (hfind : findUserPid d.pids z.pid = some i) :
    ∀ u, d.client.users[i]? = some u → ∀ win ∈ d.windows, win.wrt = u.wrt → win.exited = true := by
  intro u hu win hwin hwrt
  obtain ⟨hi, hpid, -⟩ := List.findIdx?_eq_some_iff_getElem.mp hfind
  have hget : d.windows[i]?.map Window.wrt = d.client.users[i]?.map UserStruct.wrt := by
    rw [← List.getElem?_map, ← List.getElem?_map, h.wrts]
  obtain ⟨own, hown, hownwrt⟩ : ∃ own, d.windows[i]? = some own ∧ own.wrt = u.wrt := by
    rw [hu] at hget
    exact Option.map_eq_some_iff.mp hget
  obtain rfl : win = own :=
    h.eq_of_wrt hwin (List.mem_of_getElem? hown) (hwrt.trans hownwrt.symm)
  have hsame : win.pid = z.pid := by
    have hpids : d.pids[i]? = d.windows[i]?.map Window.pid := by rw [h.pids, List.getElem?_map]
    rw [hown, List.getElem?_eq_getElem hi] at hpids
    rw [← Option.some.inj hpids]
    simpa using hpid
  -- ids in use differ: were it open, it would be the window that was returned
  by_contra hopen
  have hreaped : win.reaped = false := by
    by_contra hno
    exact hopen (h.exited win hwin (by simpa using hno))
  obtain rfl : win = z := h.eq_of_wrt hwin hz (h.distinct win hwin z hz hreaped hzreaped hsame)
  exact hopen hzexited

/-- **The handler** finds a user for every id, and marks those whose windows have exited. -/
theorem Desk.Tidy.sigchild {d : Desk} (h : d.Tidy) {pids : List ℕ}
    (hpids : ∀ p ∈ pids, ∃ z ∈ d.windows, z.exited = true ∧ z.reaped = false ∧ z.pid = p) :
    ∃ d', sigchildHandler d pids = .ok d' ∧ d'.Tidy := by
  induction pids generalizing d with
  | nil => exact ⟨d, rfl, h⟩
  | cons p pids ih =>
      obtain ⟨z, hz, hzexited, hzreaped, rfl⟩ := hpids p (by simp)
      have hmem : z.pid ∈ d.pids := by
        rw [h.pids]
        exact List.mem_map_of_mem hz
      cases hfind : findUserPid d.pids z.pid with
      | none =>
          have hno := List.findIdx?_eq_none_iff.mp hfind z.pid hmem
          simp at hno
      | some i =>
          have htidy := h.deactivate (h.exited_of_findUserPid hz hzexited hzreaped hfind)
          obtain ⟨d', hd', htidy'⟩ := ih htidy fun q hq => hpids q (by simp [hq])
          refine ⟨d', ?_, htidy'⟩
          rw [sigchildHandler, hfind]
          exact hd'

/-! ## What every step keeps -/

/-- Reading from the windows writes, and marks users as inactive. -/
theorem keeps_anyChildrenReplied {I : Process → Prop}
    (hwrote : ∀ c fd bs, fd = .stdout ∨ fd = .sock → I c →
      I { c with wrote := c.wrote ++ [(fd, bs)] })
    (hdeactivate : ∀ c i, I c → I (deactivate i c)) (slack : Slack) (rset : List ℕ)
    (pipe : ℕ → ReadResult)
    (is : List ℕ) (blk : Block) : Eff.Keeps I (anyChildrenReplied slack rset pipe is blk) := by
  have hframe : ∀ (blk : Block) (newStr : Bytes), Eff.Keeps I (do
      write .stdout newStr
      write .sock newStr
      pure blk : Chat Block) := fun _ bs =>
    .bind (.modify fun c hc => hwrote c _ bs (.inl rfl) hc) fun _ =>
      .bind (.modify fun c hc => hwrote c _ bs (.inr rfl) hc) fun _ => .pure _
  have hreplied : ∀ (i : ℕ) (u : UserStruct) (blk : Block) (r : ReadResult),
      Eff.Keeps I (childReplied slack i u blk r) := by
    intro i u blk r
    cases r with
    | eof => exact .bind (.modify fun c hc => hdeactivate c i hc) fun _ => .pure _
    | failed =>
        exact .bind (.pure _) fun blk => keeps_mem_bind fun newStr _ => hframe blk newStr
    | data b =>
        exact .bind (.lift _) fun blk => keeps_mem_bind fun newStr _ => hframe blk newStr
  induction is generalizing blk with
  | nil => exact .pure ()
  | cons i is ih =>
      unfold anyChildrenReplied
      refine .bind .get fun c => ?_
      cases c.users[i]? with
      | none => exact .pure ()
      | some u => exact .ite (fun _ => .bind (hreplied i u blk _) fun _ => ih _) fun _ => ih blk

/-- A signal marks users as inactive. -/
theorem keeps_sigchildHandler {I : Process → Prop} (hdeactivate : ∀ c i, I c → I (deactivate i c))
    {d d' : Desk} {pids : List ℕ} (h : sigchildHandler d pids = .ok d') (hd : I d.client) :
    I d'.client := by
  induction pids generalizing d with
  | nil =>
      obtain rfl := Except.ok.inj h
      exact hd
  | cons p pids ih =>
      unfold sigchildHandler at h
      cases hfind : findUserPid d.pids p with
      | none => rw [hfind] at h; cases h
      | some i =>
          rw [hfind] at h
          exact ih h (hdeactivate d.client i hd)

/-- A predicate on the client that an iteration and a signal keep. -/
structure Steady (I : Process → Prop) : Prop where
  stable : Stable I
  sock : ∀ c bs, I c → I { c with wrote := c.wrote ++ [(.sock, bs)] }
  buf : ∀ c s, I c → I (c.withBuf s)
  deactivate : ∀ c i, I c → I (deactivate i c)
  untilSock : ∀ c c', I c → I c' → I (c.untilSock c')

namespace Steady

variable {I : Process → Prop} (hI : Steady I)
include hI

/-- What every part keeps, an iteration keeps. -/
theorem keeps_iteration (slack : Slack) (pid : ℕ → ℕ) (ready : List ℕ) (server typed : ReadResult)
    (pipe : ℕ → ReadResult) :
    Eff.Keeps (fun l => I l.desk.client) (iteration slack pid ready server typed pipe) := by
  have hclient : ∀ {α : Type} {m : Chat α}, Eff.Keeps I m →
      Eff.Keeps (fun l : Loop => I l.desk.client) (onClient pid m) :=
    fun hm => keeps_onClient hm hI.untilSock pid
  have hrecord : ∀ call, Eff.Keeps (fun l : Loop => I l.desk.client) (record slack pid call) := by
    intro call
    cases call with
    | none => exact .pure ()
    | some x =>
        refine .modify fun l hl => ?_
        dsimp only
        split <;> exact hl
  have hstring : ∀ b, Eff.Keeps (fun l : Loop => I l.desk.client) (serverString slack pid b) := by
    intro b
    refine .bind .get fun l => .bind (hrecord _) fun _ => .bind (hclient ?_) fun _ => .pure _
    exact hI.stable.keeps_chatRead hI.sock hI.buf slack b
  have hserver : Eff.Keeps (fun l : Loop => I l.desk.client) (serverPart slack pid server) := by
    cases server with
    | eof => exact .bind .get fun l => .ite (fun _ => .pure _) fun _ => .stop _
    | failed => exact hstring []
    | data b => exact hstring b
  have hshut : Eff.Keeps (fun l : Loop => I l.desk.client) shutInput :=
    .bind (.modify fun l hl => hl) fun _ => .pure _
  have hline : ∀ blk, Eff.Keeps (fun l : Loop => I l.desk.client) (inputLine slack pid blk) := by
    intro blk
    refine .bind .get fun l => .bind (hrecord _) fun _ => .bind (hclient ?_) fun _ => ?_
    · exact hI.stable.keeps_chatInput_block slack (fun _ _ c hc => hI.sock c _ hc)
        fun newStr _ c hc => hI.sock c newStr hc
    · exact .ite (fun _ => hshut) fun _ => .pure _
  have hrest : ∀ r, Eff.Keeps (fun l : Loop => I l.desk.client)
      (restOfIteration slack pid ready typed pipe r) := by
    intro r
    refine .ite (fun _ => .pure _) fun _ => .ite (fun _ => ?_) fun _ => ?_
    · cases typed with
      | eof => exact hshut
      | failed => exact hline r.2
      | data line => exact keeps_mem_bind fun blk _ => hline blk
    · refine .bind .get fun l => .bind (hclient ?_) fun _ => .pure _
      apply keeps_anyChildrenReplied _ hI.deactivate
      rintro c fd bs (rfl | rfl) hc
      · exact hI.stable.wrote c _ bs (.inl rfl) hc
      · exact hI.sock c bs hc
  refine .bind (.modify fun l hl => hl) fun _ => .ite (fun _ => ?_) fun _ => hrest _
  exact .bind hserver hrest

/-- **One step of a run.** -/
theorem step {slack : Slack} {s s' : DeskRun} {e : DeskEvent} (hs : I s.loop.desk.client)
    (hst : s.Step slack e s') : I s'.loop.desk.client := by
  cases e with
  | iterates ready server typed pipe pid =>
      obtain ⟨-, -, -, -, -, rfl⟩ := hst
      exact hI.keeps_iteration slack pid ready server typed pipe s.loop hs
  | exits n =>
      obtain rfl : s' = _ := hst
      exact hs
  | sigchild pids =>
      obtain ⟨-, -, hok, herror⟩ := hst
      cases hd : sigchildHandler s.loop.desk pids with
      | ok d =>
          have hafter := keeps_sigchildHandler hI.deactivate hd hs
          rw [hok d hd]
          exact hafter
      | error f =>
          rw [herror f hd]
          exact hs

end Steady

/-- What was written stays. -/
theorem stable_wrote (l : List (Fd × Bytes)) : Stable fun c => ∃ ws, c.wrote = l ++ ws where
  wrote := by
    rintro c fd bs - ⟨ws, hws⟩
    exact ⟨ws ++ [(fd, bs)], by rw [hws, List.append_assoc]⟩
  addUser := fun c w _ h => h
  confirm := fun c i h => h

/-- What was written stays. -/
theorem steady_wrote (l : List (Fd × Bytes)) : Steady fun c => ∃ ws, c.wrote = l ++ ws where
  stable := stable_wrote l
  sock := by
    rintro c bs ⟨ws, hws⟩
    exact ⟨ws ++ [(.sock, bs)], by rw [hws, List.append_assoc]⟩
  buf := fun c s h => h
  untilSock := by
    rintro c c' ⟨ws, hws⟩ ⟨ws', hws'⟩
    have hlen : l.length ≤ c.wrote.length := by rw [hws, List.length_append]; omega
    unfold Process.untilSock
    dsimp only
    rw [hws', List.take_append, List.take_of_length_le (Nat.le_add_right_of_le hlen)]
    exact ⟨_, rfl⟩
  deactivate := fun c i h => h

end ME2U.Client
