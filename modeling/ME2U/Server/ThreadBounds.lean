import ME2U.Server.ThreadTraffic

/-!
# How long a thread takes for a request

Each loop over `users` has the length of the list as its bound, however the others change it
meanwhile. A handler thread waits for nobody but the peers that it sends to: a `send` returns when
there is room in the buffers of the connection.

* `Pc.rank`: how many steps are left, with at most `N` entries.
* `Pc.step_eq_none_iff`: a thread that is not in `recv` and has not ended waits only where it sends.
* `Threads.requestBounded`: a request is done within `3 * N + 5` steps of its thread.
-/

namespace ME2U.Server

/-- Where an action sends to. -/
def Act.dest : Act → Option Conn
  | .sends dest _ => some dest
  | _ => none

namespace Pc

/-- How many steps a thread has left for the request at most, where the list has at most `N`
entries. -/
def rank (N : ℕ) : Pc → ℕ
  | recv | left | raised _ => 0
  | checkUserExists _ idx => N - idx + 4
  | sendMai _ => 3
  | sendMotd _ => 2
  | append _ | reply _ | sendFrom _ _ _ _ | closeUnknown => 1
  | getUsers _ idx | findUserToSendMsgTo _ _ _ idx => N - idx + 2
  | getNameFromAddr (.toUser _ _) idx => N - idx + (N + 3)
  | getNameFromAddr (.morf _) idx => N - idx + (2 * N + 2)
  | sendOtToUsr _ _ idx | broadcastUoff _ idx => 2 * (N - idx) + 1
  | sendOt _ _ idx _ | sendUoff _ idx _ => 2 * (N - idx) + 2
  | removeUsrByAddr idx => N - idx + (2 * N + 5)
  | sendEyb _ => 2 * N + 4
  | close _ => 2 * N + 3
  | remove _ => 2 * N + 2

variable {N : ℕ} {c : Conn} {addr : Addr} {σ : Shared} {pc pc' : Pc} {a : Act}

/-- A request takes three passes over the list at most. -/
theorem rank_received_le (N : ℕ) (isOpen : Bool) (data : Bytes) :
    (received isOpen data).rank N ≤ 3 * N + 5 := by
  unfold received
  split_ifs
  · exact Nat.zero_le _
  · exact Nat.zero_le _
  · cases requestString data with
    | none => exact Nat.zero_le _
    | some newStr =>
        show (start (treatment newStr)).rank N ≤ _
        cases treatment newStr with
        | unsplit => exact Nat.zero_le _
        | unknown => exact Nat.le_add_left 1 _
        | request q => cases q <;> simp only [start, rank] <;> omega

/-- What the look-up of the sender is for takes the rest of the steps. -/
theorem rank_called_lt (N : ℕ) (fromName : Option Str) (call : Lookup) (idx : ℕ) :
    (call.called fromName).rank N < (getNameFromAddr call idx).rank N := by
  cases call <;> simp only [Lookup.called, rank] <;> omega

/-- **Every move leaves less to do**, but for what `recv` returns. -/
theorem Moves.rank_lt (h : Moves c addr σ pc a pc') (hlen : σ.users.length ≤ N) (hpc : pc ≠ recv) :
    pc'.rank N < pc.rank N := by
  -- an index at which there is an entry is less than `N`
  have hidx : ∀ {idx : ℕ} {i : Entry}, σ.users[idx]? = some i → idx < N := fun hi =>
    (List.getElem?_eq_some_iff.mp hi).1.trans_le hlen
  induction h with
  | receives => exact absurd rfl hpc
  | raises _ _ ih => exact (Nat.zero_le _).trans_lt (ih hpc)
  | @callerFound call idx i => exact rank_called_lt N _ call idx
  | @callerEnd call idx => exact rank_called_lt N _ call idx
  | @callerNext call idx i hi =>
      have := hidx hi
      cases call <;> simp only [rank] <;> omega
  | nameTaken hi | nameNext hi | usersNext hi | receiverFound hi
  | receiverFails hi | receiverNext hi
  | confirmedFound hi | confirmedFails hi | confirmedNext hi | leaverFound hi | leaverNext hi
  | uoffNext hi =>
      have := hidx hi
      simp only [rank]
      omega
  | _ =>
      simp only [rank]
      omega

/-- The thread waits in `recv`, or has ended. -/
def Done : Pc → Prop
  | recv | left | raised _ => True
  | _ => False

/-- A thread that is not done has something to do next. -/
theorem exists_next (c : Conn) (addr : Addr) (σ : Shared) (hpc : ¬pc.Done) :
    ∃ x, pc.next c addr σ = some x := by
  cases pc with
  | recv | left | raised => exact absurd trivial hpc
  | remove toRem =>
      rw [next]
      split_ifs <;> exact ⟨_, rfl⟩
  | _ => exact ⟨_, rfl⟩

/-- The connection that the thread of `c` sends to next. -/
def receiver (c : Conn) : Pc → Option Conn
  | sendMai _ | sendMotd _ | reply _ => some c
  | sendFrom _ dest _ _ | sendOt _ _ _ dest | sendUoff _ _ dest => some dest
  | sendEyb toRem => some toRem.user.conn
  | _ => none

/-- The thread sends to a connection that is open and has no room. -/
def Blocked (room isOpen : Conn → Bool) (c : Conn) (pc : Pc) : Prop :=
  ∃ dest, pc.receiver c = some dest ∧ isOpen dest = true ∧ room dest = false

/-- The receiver is where the next move sends to. -/
theorem Moves.receiver (h : Moves c addr σ pc a pc') : pc.receiver c = a.dest := by
  induction h with
  | raises _ _ ih => exact ih
  | _ => rfl

/-- **A thread waits only for room**: one that is not done has no step exactly while it sends to an
open connection whose buffers are full. -/
theorem step_eq_none_iff (room : Conn → Bool) (c : Conn) (addr : Addr)
    (σ : Shared) (hpc : ¬pc.Done) :
    pc.step room c addr σ = none ↔ pc.Blocked room σ.isOpen c := by
  obtain ⟨⟨a, pc'⟩, hnext⟩ := exists_next c addr σ hpc
  have hreceiver : pc.receiver c = a.dest := (moves_of_next hnext).receiver
  unfold step Blocked
  rw [hnext, hreceiver]
  cases a with
  | sends dest body =>
      dsimp only
      constructor
      · intro hnone
        have hroom : σ.isOpen dest = true ∧ room dest = false := by
          by_contra hfree
          rw [if_neg hfree] at hnone
          cases hnone
        exact ⟨dest, rfl, hroom⟩
      · rintro ⟨dest', hdest, hroom⟩
        cases hdest
        exact if_pos hroom
  | _ => exact ⟨nofun, nofun⟩

/-- A thread with a next step has steps left. -/
theorem rank_pos (hpc : ¬pc.Done) : 0 < pc.rank N := by
  cases pc with
  | recv | left | raised => exact absurd trivial hpc
  | getNameFromAddr call idx => cases call <;> exact Nat.succ_pos _
  | _ => exact Nat.succ_pos _

end Pc

namespace Threads

/-- The list has at most `N` entries, and `recv` does not return in the thread of the connection. -/
def Busy (N : ℕ) (c : Conn) (s : Threads) (e : ThreadEvent) : Prop :=
  s.shared.users.length ≤ N ∧ ∀ data, e ≠ .receives c data

/-- Each step of the thread is one of those that it had left. -/
theorem steps_add_rank_le {N : ℕ} {c : Conn} {t s : Threads}
    (h : Reaches (· = t) (Busy N c) Step s) :
    (deedsOf c s.shared.deeds).length + (s.pc c).rank N ≤
      (deedsOf c t.shared.deeds).length + (t.pc c).rank N := by
  refine h.invariant (I := fun s => (deedsOf c s.shared.deeds).length + (s.pc c).rank N ≤
    (deedsOf c t.shared.deeds).length + (t.pc c).rank N) ?_ ?_
  · rintro s rfl
    exact le_rfl
  · rintro s e s' hs ⟨hlen, hreceives⟩ hst
    have hother : ∀ conn a pc, c ≠ conn → (deedsOf c (s.go conn a pc).shared.deeds).length +
        ((s.go conn a pc).pc c).rank N = (deedsOf c s.shared.deeds).length + (s.pc c).rank N := by
      intro conn a pc hne
      rw [go_pc_of_ne hne]
      unfold go
      rw [Shared.deeds_after, deedsOf_append_of_ne hne]
    cases hst with
    | accepts | breaks => exact hs
    | @receives conn addr data =>
        rw [hother _ _ _ fun heq => hreceives data (by rw [heq])]
        exact hs
    | @advances conn addr a pc _ _ hstep =>
        have hnext := Pc.next_of_step hstep
        by_cases hne : c = conn
        · subst hne
          have hrecv : s.pc c ≠ .recv := by
            intro hpc
            rw [hpc] at hnext
            cases hnext
          have hlt := (Pc.moves_of_next hnext).rank_lt hlen hrecv
          rw [go_pc_self]
          unfold go
          rw [Shared.deeds_after, deedsOf_append_self, List.length_append, List.length_singleton]
          omega
        · rw [hother _ _ _ hne]
          exact hs

/-- **A request is done in time**, whatever the others do: from where `recv` returned, and as long
as the list has at most `N` entries, a thread takes `3 * N + 5` steps at most until it is done, and
before that it waits only for room in a connection that it sends to. -/
theorem requestBounded {N : ℕ} {c : Conn} {t s : Threads} {isOpen : Bool} {data : Bytes}
    (hpc : t.pc c = .received isOpen data) (h : Reaches (· = t) (Busy N c) Step s) :
    (deedsOf c s.shared.deeds).length ≤ (deedsOf c t.shared.deeds).length + (3 * N + 5) ∧
      (¬(s.pc c).Done →
        (∀ room addr, (s.pc c).step room c addr s.shared = none ↔
          (s.pc c).Blocked room s.shared.isOpen c) ∧
        (deedsOf c s.shared.deeds).length < (deedsOf c t.shared.deeds).length + (3 * N + 5)) := by
  have hsteps := steps_add_rank_le h
  have hrank := Pc.rank_received_le N isOpen data
  rw [hpc] at hsteps
  refine ⟨by omega, fun hdone => ⟨fun room addr => ?_, ?_⟩⟩
  · exact Pc.step_eq_none_iff room c addr s.shared hdone
  have hpos := Pc.rank_pos (N := N) hdone
  omega

/-- What is done next with a request. -/
theorem received_wire {q : Request} (hq : q.CRFree) (hgrammatical : Grammatical q) :
    Pc.received true (wire q.render) = .start (.request q) := by
  have hdata : wire q.render ≠ [] := by
    simp [wire, encode, terminatingSequence]
  rw [Pc.received, if_neg (by simp), if_neg hdata, requestString_wire hq]
  exact congrArg Pc.start (treatment_render hgrammatical)

theorem received_me2u : Pc.received true (wire Verb.me2u) = .reply Verb.u2em :=
  received_wire (q := .me2u) trivial trivial

/-- A thread looks at a list of two. -/
private theorem look {t s : Threads} {e₀ e₁ : Entry} {pc pc' : Pc}
    (h : Reaches (· = t) (Busy 2 1) Step s) (husers : s.shared.users = [e₀, e₁])
    (hmem : ((1 : Conn), (1 : Addr)) ∈ s.shared.accepted) (hpc : s.pc 1 = pc)
    (hnext : ∀ σ : Shared, σ.users = [e₀, e₁] → pc.next 1 1 σ = some (.looks, pc')) :
    Reaches (· = t) (Busy 2 1) Step (s.go 1 .looks pc') := by
  have hbusy : Busy 2 1 s (.advances 1) := ⟨by rw [husers]; rfl, fun _ => nofun⟩
  refine h.step hbusy (.of_next hmem ?_)
  rw [hpc]
  exact hnext _ husers

/-- What `b` sends. -/
private abbrev toA : Request := .toUser ['a'] ['h', 'i']

/-- `recv` has returned `TO a hi` in the thread of `b`. -/
private theorem exists_asked :
    ∃ (t : Threads) (e₀ e₁ : Entry), Reaches Initial DistinctAddress Step t ∧
    t.shared.users = [e₀, e₁] ∧ e₀.user = ⟨['a'], 0, 0⟩ ∧ e₁.user = ⟨['b'], 1, 1⟩ ∧
    ((1 : Conn), (1 : Addr)) ∈ t.shared.accepted ∧ t.shared.isOpen 0 = true ∧
    t.pc 1 = .received true (wire toA.render) := by
  obtain ⟨t, ht, hworld, haccepted, hpc⟩ := of_listener_distinct reaches_two_clients
  have husers : t.shared.users.map Entry.user = [⟨['a'], 0, 0⟩, ⟨['b'], 1, 1⟩] :=
    congrArg World.users hworld
  have hopen : t.shared.isOpen 0 = true ∧ t.shared.isOpen 1 = true := by
    have hisOpen : t.shared.isOpen = Listener.twoClients.world.isOpen :=
      congrArg World.isOpen hworld
    rw [hisOpen]
    decide
  have hmem : ((1 : Conn), (1 : Addr)) ∈ t.shared.accepted := by
    rw [haccepted]
    decide
  have hrecv : t.pc 1 = .recv := by
    rw [hpc]
    rfl
  obtain ⟨e₀, rest, hlist, huser₀, hrest⟩ := List.map_eq_cons_iff.mp husers
  obtain ⟨e₁, rfl, huser₁⟩ := List.map_eq_singleton_iff.mp hrest
  have hcond : t.DistinctAddress (.receives 1 (wire toA.render)) := trivial
  refine ⟨_, e₀, e₁, ht.step hcond (.receives hmem hrecv), hlist, huser₀, huser₁, hmem, hopen.1, ?_⟩
  rw [go_pc_self, hopen.2]

/-- `b` has sent `TO a hi`, and `a` does not read: the thread of `b` has looked at the list three
times, and waits in `send`. -/
theorem requestBounded_full : ∃ t s : Threads, Reaches Initial DistinctAddress Step t ∧
    Reaches (· = t) (Busy 2 1) Step s ∧ s.pc 1 = .sendFrom ['a'] 0 ['b'] ['h', 'i'] ∧
    (s.pc 1).step (fun _ => false) 1 1 s.shared = none ∧
    (deedsOf 1 s.shared.deeds).length = (deedsOf 1 t.shared.deeds).length + 3 ∧
    (deedsOf 1 s.shared.deeds).length < (deedsOf 1 t.shared.deeds).length + 11 := by
  obtain ⟨t, e₀, e₁, ht, husers, huser₀, huser₁, hmem, hopen, hpc⟩ := exists_asked
  have hstart : t.pc 1 = .getNameFromAddr (.toUser ['a'] ['h', 'i']) 0 :=
    hpc.trans (received_wire (q := toA) (show '\r' ∉ ['a'] ∧ '\r' ∉ ['h', 'i'] by decide)
      (show IsName ['a'] by decide))
  -- it looks at `a`, which is not the sender, at `b`, and then at `a` again
  have hfirst : ∀ σ : Shared, σ.users = [e₀, e₁] →
      (Pc.getNameFromAddr (.toUser ['a'] ['h', 'i']) 0).next 1 1 σ =
        some (.looks, .getNameFromAddr (.toUser ['a'] ['h', 'i']) 1) := by
    intro σ hσ
    simp [Pc.next, Pc.seeking, hσ, huser₀]
  have hsecond : ∀ σ : Shared, σ.users = [e₀, e₁] →
      (Pc.getNameFromAddr (.toUser ['a'] ['h', 'i']) 1).next 1 1 σ =
        some (.looks, .findUserToSendMsgTo ['a'] ['h', 'i'] (some ['b']) 0) := by
    intro σ hσ
    simp [Pc.next, Pc.seeking, hσ, huser₁, Lookup.called]
  have hthird : ∀ σ : Shared, σ.users = [e₀, e₁] →
      (Pc.findUserToSendMsgTo ['a'] ['h', 'i'] (some ['b']) 0).next 1 1 σ =
        some (.looks, .sendFrom ['a'] 0 ['b'] ['h', 'i']) := by
    intro σ hσ
    simp [Pc.next, Pc.seeking, hσ, huser₀]
  have hrun :=
    look (look (look (.start rfl) husers hmem hstart hfirst) husers hmem (go_pc_self ..) hsecond)
    husers hmem (go_pc_self ..) hthird
  obtain ⟨hwaits, hlt⟩ := (requestBounded hpc hrun).2 (by rw [go_pc_self]; exact id)
  refine ⟨t, _, ht, hrun, go_pc_self .., (hwaits _ 1).mpr ?_, ?_, hlt⟩
  · rw [go_pc_self]
    exact ⟨0, rfl, hopen, rfl⟩
  · simp only [go, Shared.deeds_after, deedsOf_append_self, List.length_append,
      List.length_singleton]

end Threads

end ME2U.Server
