import ME2U.Server.ThreadBounds

/-!
# Threads under a lock

`handle_user` takes no lock. Here are the runs in which a request that changes the list, or closes a
connection, is handled while no other request is, as a lock for readers and writers would have it.
The other requests may overlap in any way.

In those runs the threads do what the server does that handles one request at a time. A request that
only reads the list sends one frame at most, since names are distinct, and takes effect when that is
sent.

* `Pc.Writes`: the points of the requests that are handled alone.
* `Goes.next`, `Looks`: what a thread does next is on its way, and what looks at the list goes on as
  before whatever the others send.
* `Stands`, `Linear`: where the threads are, and where the handlers are of the other server.
* `Threads.linearizable`: every state of such a run has a state of the other server behind it.
-/

namespace ME2U.Server

namespace Pc

/-- The thread handles a request that may change the list or close a connection. -/
def Writes : Pc → Prop
  | checkUserExists _ _ | sendMai _ | sendMotd _ | append _ | removeUsrByAddr _
  | sendEyb _ | close _
  | remove _ | broadcastUoff _ _ | sendUoff _ _ _ | closeUnknown => True
  | _ => False

variable {conn : Conn} {addr : Addr} {σ τ : Shared} {pc pc' : Pc} {a : Act}

/-- A thread that is done does nothing, -/
theorem next_of_done (h : pc.Done) (conn : Conn) (addr : Addr) (σ : Shared) :
    pc.next conn addr σ = none := by
  cases pc with
  | recv | left | raised => rfl
  | _ => exact h.elim

/-- and one that does something is not done. -/
theorem not_done_of_next (h : pc.next conn addr σ = some (a, pc')) : ¬pc.Done := by
  intro hdone
  rw [next_of_done hdone] at h
  cases h

theorem not_writes_of_done (h : pc.Done) : ¬pc.Writes := by
  cases pc with
  | recv | left | raised => exact id
  | _ => exact h.elim

theorem done_ofStop (stop : Stop) : (ofStop stop).Done := by
  cases stop <;> trivial

theorem ofStop_eq_recv_iff {stop : Stop} : ofStop stop = recv ↔ stop = .waiting := by
  cases stop <;> simp [ofStop]

/-- Only the receive receives. -/
theorem Moves.ne_receives (h : Moves conn addr σ pc a pc') (hpc : pc ≠ recv) :
    ∀ data, a ≠ .receives data := by
  induction h with
  | receives => exact absurd rfl hpc
  | raises _ _ ih => exact ih hpc
  | _ => exact fun data => nofun

/-- A thread that writes goes on to write until it is done. -/
theorem Moves.writes (h : Moves conn addr σ pc a pc') (hpc : pc.Writes) :
    pc'.Writes ∨ pc'.Done := by
  induction h with
  | raises => exact .inr trivial
  | nameTaken | registers | leaverEnd | removeFails | uoffEnd | closesUnknown => exact .inr trivial
  | nameNext | nameFree | mai | motd | leaverFound | leaverNext | eyb | closes | removes
  | uoffNext | uoff =>
      exact .inl trivial
  | _ => exact hpc.elim

/-- A thread that does not looks at the list or sends. -/
theorem Moves.reads (h : Moves conn addr σ pc a pc') (hpc : ¬pc.Writes) (hrecv : pc ≠ recv) :
    (a = .looks ∨ ∃ dest body, a = .sends dest body) ∧ ¬pc'.Writes := by
  induction h with
  | receives => exact absurd rfl hrecv
  | raises _ _ ih => exact ⟨(ih hpc hrecv).1, id⟩
  | usersNext | usersEnd | callerNext | receiverFound | receiverFails | receiverNext | receiverEnd
  | confirmedFound | confirmedFails | confirmedNext | confirmedEnd => exact ⟨.inl rfl, id⟩
  | @callerFound call | @callerEnd call =>
      cases call <;> exact ⟨.inl rfl, id⟩
  | replies | relays | confirms => exact ⟨.inr ⟨_, _, rfl⟩, id⟩
  | _ => exact absurd trivial hpc

/-- A look at the list is the same whatever else is shared. -/
theorem next_looks_congr (h : pc.next conn addr σ = some (.looks, pc'))
    (husers : τ.users = σ.users) :
    pc.next conn addr τ = some (.looks, pc') := by
  cases pc with
  | recv | left | raised | append | close | closeUnknown => cases h
  | sendMai | sendMotd | reply | sendFrom | sendOt | sendEyb | sendUoff => cases h
  | remove toRem =>
      rw [next] at h ⊢
      rw [husers]
      split_ifs at h ⊢ with hmem
      · exact h
      · exact h
  | _ =>
      simp only [next, seeking, husers] at h ⊢
      exact h

/-- What a thread does next does not depend on the record. -/
theorem next_withDeeds (pc : Pc) (conn : Conn) (addr : Addr) (σ : Shared) (ds : List Deed) :
    pc.next conn addr { σ with deeds := ds } = pc.next conn addr σ := by
  cases pc <;> rfl

end Pc

/-! ## On its way -/

section Alone

variable {conn : Conn} {addr : Addr} {σ σ' : Shared} {pc pc' z : Pc} {a : Act}

/-- From there it goes nowhere. -/
theorem Goes.of_done (h : Goes conn addr (pc, σ) (z, σ')) (hpc : pc.Done) : z = pc ∧ σ' = σ := by
  rcases Relation.ReflTransGen.cases_head h with heq | ⟨y, ⟨a, hstep, -⟩, -⟩
  · cases heq
    exact ⟨rfl, rfl⟩
  · exact absurd hpc (Pc.not_done_of_next hstep)

/-- A thread that is on its way to where it is done is so after its next step. -/
theorem Goes.next (h : Goes conn addr (pc, σ) (z, σ')) (hz : z.Done)
    (hstep : pc.next conn addr σ = some (a, pc')) :
    Goes conn addr (pc', σ.after conn a) (z, σ') := by
  rcases Relation.ReflTransGen.cases_head h with heq | ⟨⟨pc₁, σ₁⟩, ⟨b, hstep₁, hσ₁⟩, hgoes⟩
  · cases heq
    exact absurd hz (Pc.not_done_of_next hstep)
  · dsimp only at hstep₁ hσ₁
    rw [hstep] at hstep₁
    cases hstep₁
    rw [← hσ₁]
    exact hgoes

/-- The same without what was put on record. -/
theorem Goes.withDeeds (h : Goes conn addr (pc, σ) (z, σ')) (ds : List Deed) :
    ∃ ds', Goes conn addr (pc, { σ with deeds := ds }) (z, { σ' with deeds := ds' }) := by
  have hall : ∀ y, Goes conn addr (pc, σ) y →
      ∃ ds', Goes conn addr (pc, { σ with deeds := ds }) (y.1, { y.2 with deeds := ds' }) := by
    intro y hy
    induction hy with
    | refl => exact ⟨ds, .refl _⟩
    | @tail x y _ hstep ih =>
        obtain ⟨ds', hgoes⟩ := ih
        obtain ⟨a, hstep, hafter⟩ := hstep
        refine ⟨ds' ++ [⟨conn, a⟩], Relation.ReflTransGen.tail hgoes ⟨a, ?_, ?_⟩⟩
        · exact (Pc.next_withDeeds ..).trans hstep
        · rw [hafter]
          cases a <;> rfl
  exact hall _ h

/-- The thread gets from one point to another by looks at a list. -/
def Looks (conn : Conn) (addr : Addr) (users : List Entry) : Pc → Pc → Prop :=
  Relation.ReflTransGen fun pc pc' => ∀ σ : Shared, σ.users = users →
    pc.next conn addr σ = some (.looks, pc')

theorem Looks.refl (users : List Entry) (pc : Pc) : Looks conn addr users pc pc :=
  Relation.ReflTransGen.refl

/-- The next step of a thread that only looks on. -/
theorem Looks.next (h : Looks conn addr σ.users pc z) (hz : z.Done)
    (hstep : pc.next conn addr σ = some (a, pc')) : a = .looks ∧ Looks conn addr σ.users pc' z := by
  rcases Relation.ReflTransGen.cases_head h with rfl | ⟨pc₁, hlook, hlooks⟩
  · exact absurd hz (Pc.not_done_of_next hstep)
  · have hstep₁ := hlook σ rfl
    rw [hstep] at hstep₁
    cases hstep₁
    exact ⟨rfl, hlooks⟩

/-- A thread that is done looks at nothing. -/
theorem Looks.of_done {users : List Entry} (h : Looks conn addr users pc z) (hpc : pc.Done) :
    pc = z := by
  rcases Relation.ReflTransGen.cases_head h with rfl | ⟨pc₁, hlook, -⟩
  · rfl
  · exact absurd hpc (Pc.not_done_of_next (hlook ⟨users, 0, fun _ => true, [], [], []⟩ rfl))

/-- What was sent stays sent. -/
theorem Goes.length_sent_le (h : Goes conn addr (pc, σ) (z, σ')) :
    σ.sent.length ≤ σ'.sent.length := by
  have hall : ∀ y, Goes conn addr (pc, σ) y → σ.sent.length ≤ y.2.sent.length := by
    intro y hy
    induction hy with
    | refl => exact le_rfl
    | @tail x y _ hstep ih =>
        obtain ⟨a, -, hafter⟩ := hstep
        rw [hafter]
        refine ih.trans ?_
        cases a <;> simp [Shared.after, Shared.act, Shared.recorded]
  exact hall _ h

/-- A thread that does not write, and sends nothing more, only looks on. -/
theorem Goes.looks (h : Goes conn addr (pc, σ) (z, σ')) (hpc : ¬pc.Writes)
    (hsent : σ'.sent.length ≤ σ.sent.length) :
    Looks conn addr σ.users pc z ∧ σ'.world = σ.world := by
  have hall : ∀ x : Pc × Shared, Goes conn addr x (z, σ') → ¬x.1.Writes →
    σ'.sent.length ≤ x.2.sent.length →
      Looks conn addr x.2.users x.1 z ∧ σ'.world = x.2.world := by
    intro x hx
    induction hx using Relation.ReflTransGen.head_induction_on with
    | refl => exact fun _ _ => ⟨.refl _ _, rfl⟩
    | @head x y hstep hrest ih =>
        obtain ⟨a, hstep, hafter⟩ := hstep
        intro hwrites hle
        have hrecv : x.1 ≠ .recv := by
          intro heq
          rw [heq] at hstep
          cases hstep
        obtain ⟨rfl | ⟨dest, body, rfl⟩, hwrites'⟩ := (Pc.moves_of_next hstep).reads hwrites hrecv
        · rw [hafter] at ih
          obtain ⟨hlooks, hworld⟩ := ih hwrites' hle
          exact ⟨.head (fun τ hτ => Pc.next_looks_congr hstep hτ) hlooks, hworld⟩
        · -- a frame more than there is in the end
          have hmore : y.2.sent.length ≤ _ := Goes.length_sent_le hrest
          rw [hafter] at hmore
          have hlen : (x.2.after conn (.sends dest body)).sent.length = x.2.sent.length + 1 := by
            simp [Shared.after, Shared.act, Shared.recorded]
          omega
  exact hall _ h hpc hsent

/-- What is done from wherever the list is the same is done after a look at it, too. -/
theorem CarriesOut.after_look {α : Type} {m : Py α} {f : α → Pc}
    (hf : ∀ out, (Pc.goesOn f out).Done)
    (h : ∀ τ : Shared, τ.users = σ.users → CarriesOut conn addr pc τ m f)
    (hstep : pc.next conn addr σ = some (.looks, pc')) (τ : Shared) (hτ : τ.users = σ.users) :
    CarriesOut conn addr pc' τ m f := by
  obtain ⟨τ', hgoes, hworld, haccepted⟩ := h τ hτ
  obtain ⟨ds, hgoes'⟩ := (hgoes.next (hf _) (Pc.next_looks_congr hstep hτ)).withDeeds τ.deeds
  exact ⟨_, hgoes', hworld, haccepted⟩

end Alone

/-! ## One frame -/

/-- **Where names are distinct, a request that is not handled alone sends one frame at most.** -/
theorem length_sent_dispatch_le (conn : Conn) (addr : Addr) {newStr : Str}
    (hreads : ¬(Pc.start (treatment newStr)).Writes) {w : World}
    (hnd : (w.users.map User.name).Nodup) :
    ((dispatch conn addr newStr).run w).2.sent.length ≤ w.sent.length + 1 := by
  have hlogged : ∀ c f, (w.logged c f).sent.length ≤ w.sent.length + 1 := fun c f => by
    rw [World.logged_sent, List.length_append, List.length_singleton]
  rcases branch_cases newStr with rfl | hiam | rfl | hto | hmorf | rfl | hother
  · have hme2u : dispatch conn addr Verb.me2u = _ := dispatch_me2u conn addr
    rw [hme2u, run_send_again_snd]
    exact hlogged _ _
  · rw [treatment_of_take_iam hiam] at hreads
    exact absurd trivial hreads
  · have hlistu : dispatch conn addr Verb.listu = _ := dispatch_listu conn addr
    rw [hlistu, Eff.run_get_bind, run_send_again_snd]
    exact hlogged _ _
  · rcases run_dispatch_to_snd conn addr w hto with
      ⟨hrun, -⟩ | ⟨name, msg, -, -, ⟨i, s, -, -, hrun⟩ | ⟨-, hrun⟩⟩
    · rw [hrun]
      exact Nat.le_succ _
    · rw [hrun]
      exact hlogged _ _
    · rw [hrun]
      exact hlogged _ _
  · rw [run_dispatch_morf_snd conn addr hmorf]
    cases hfind : w.users.find? (·.name == newStr.drop 5) with
    | none =>
        have hne : ∀ u ∈ w.users, u.name ≠ newStr.drop 5 := by simpa using hfind
        rw [sendOtToUsr_of_forall_ne hne]
        exact Nat.le_succ _
    | some i =>
        cases getNameFromAddr w.users addr with
        | none =>
            have hmem : newStr.drop 5 ∈ w.users.map User.name :=
              List.mem_map.mpr ⟨i,
                List.mem_of_find?_eq_some hfind, by simpa using List.find?_some hfind⟩
            rw [run_sendOtToUsr_none hmem]
            exact Nat.le_succ _
        | some s =>
            rw [run_sendOtToUsr_of_find hnd hfind]
            exact hlogged _ _
  · exact absurd trivial hreads
  · rw [treatment_of_other hother] at hreads
    exact absurd trivial hreads

/-! ## What was heard, and what was handled -/

/-- What `recv` returned. -/
def Act.heard : Act → Option Bytes
  | .receives data => some data
  | _ => none

/-- What the thread of a connection got from `recv`, as request strings. -/
def heard (c : Conn) (ds : List Deed) : List (Option Str) :=
  ((deedsOf c ds).filterMap Act.heard).map requestString

/-- The requests of a connection that were handled. -/
def handled (c : Conn) (history : List Exchange) : List (Option Str) :=
  (history.filter fun e => e.conn == c).map fun e => some e.newStr

section Heard

variable {c c' : Conn} {ds : List Deed}

/-- What is received is heard, -/
theorem heard_receives (c : Conn) (ds : List Deed) (data : Bytes) :
    heard c (ds ++ [⟨c, .receives data⟩]) = heard c ds ++ [requestString data] := by
  unfold heard
  rw [deedsOf_append_self, List.filterMap_append, List.map_append]
  rfl

/-- nothing else is -/
theorem heard_of_ne_receives {a : Act} (ha : ∀ data, a ≠ .receives data)
    (c : Conn) (ds : List Deed) :
    heard c (ds ++ [⟨c, a⟩]) = heard c ds := by
  have hnone : Act.heard a = none := by
    cases a with
    | receives data => exact absurd rfl (ha data)
    | _ => rfl
  unfold heard
  rw [deedsOf_append_self, List.filterMap_append,
    List.filterMap_cons_none hnone, List.filterMap_nil, List.append_nil]

/-- and nothing by another thread. -/
theorem heard_of_ne (h : c' ≠ c) (ds : List Deed) (a : Act) :
    heard c' (ds ++ [⟨c, a⟩]) = heard c' ds := by
  unfold heard
  rw [deedsOf_append_of_ne h]

/-- A request is handled by its own thread -/
theorem handled_serve_self (s : Listener) (c : Conn) (addr : Addr) (newStr : Str) :
    handled c (s.serve c addr newStr).history = handled c s.history ++ [some newStr] := by
  simp [handled, Listener.serve]

/-- and by no other. -/
theorem handled_serve_of_ne {s : Listener} (h : c' ≠ c) (addr : Addr) (newStr : Str) :
    handled c' (s.serve c addr newStr).history = handled c' s.history := by
  simp [handled, Listener.serve, h.symm]

end Heard

/-! ## The server behind the threads -/

namespace Threads

/-- A request that changes the list or closes a connection starts when no other is handled, and
until it is done nothing else starts. Of the connections whose requests are handled none breaks. -/
def Locked (t : Threads) : ThreadEvent → Prop
  | .accepts _ _ => ∀ c, ¬(t.pc c).Writes
  | .receives conn data => (∀ c, ¬(t.pc c).Writes) ∧
      ((Pc.received (t.shared.isOpen conn) data).Writes → ∀ c, (t.pc c).Done)
  | .advances _ => True
  | .breaks conn => (∀ c, ¬(t.pc c).Writes) ∧ (t.pc conn).Done

/-- A request that the thread has received, and the handler has not. -/
structure Pending (s : Listener) (t : Threads) (c : Conn) (addr : Addr) (newStr : Str) : Prop where
  mem : (c, addr) ∈ s.accepted
  stop : s.stop c = .waiting
  data : ∃ data, data ≠ [] ∧ requestString data = some newStr
  heard : heard c t.shared.deeds = handled c s.history ++ [some newStr]

/-- Where a thread stands that does not write. -/
inductive Stands (s : Listener) (t : Threads) (c : Conn) : Prop
  /-- It is done where its handler is. -/
  | rests : t.pc c = .ofStop (s.stop c) →
      (s.stop c = .waiting → heard c t.shared.deeds = handled c s.history) → Stands s t c
  /-- The request has been handled, and the thread looks on until it is there. -/
  | past {addr : Addr} : (c, addr) ∈ s.accepted →
      Looks c addr t.shared.users (t.pc c) (.ofStop (s.stop c)) →
      (s.stop c = .waiting → heard c t.shared.deeds = handled c s.history) → Stands s t c
  /-- The request has not been handled, and the thread is about to do what the dispatch does. -/
  | ahead {addr : Addr} {newStr : Str} : Pending s t c addr newStr → t.shared.isOpen c = true →
      ¬(t.pc c).Done → ¬(Pc.start (treatment newStr)).Writes →
      (∀ σ : Shared, σ.users = t.shared.users →
        CarriesOut c addr (t.pc c) σ (dispatch c addr newStr) Pc.loopCtl) → Stands s t c

/-- **The server behind the threads**: it is where they are, but for one that writes, and which it
is going to follow when that is done. -/
inductive Linear (t : Threads) (s : Listener) : Prop
  | free : (∀ c, ¬(t.pc c).Writes) → t.shared.world = s.world → t.shared.accepted = s.accepted →
      (∀ c, Stands s t c) → Linear t s
  | held {c : Conn} {addr : Addr} {newStr : Str} {σ : Shared} : (t.pc c).Writes →
      (∀ c', c' ≠ c → (t.pc c').Done ∧ Stands s t c') → Pending s t c addr newStr →
      s.world.isOpen c = true → t.shared.accepted = s.accepted →
      Goes c addr (t.pc c, t.shared)
        (.ofStop (stopAfter ((dispatch c addr newStr).run s.world).1), σ) →
      σ.world = ((dispatch c addr newStr).run s.world).2 → Linear t s

section Linear

variable {s s' : Listener} {t t' : Threads} {c : Conn} {addr : Addr} {newStr : Str}

/-- A thread that is done is where its handler is, and has heard what was handled. -/
theorem Stands.of_done (h : Stands s t c) (hpc : (t.pc c).Done) : t.pc c = .ofStop (s.stop c) ∧
    (s.stop c = .waiting → heard c t.shared.deeds = handled c s.history) := by
  cases h with
  | rests hstop hheard => exact ⟨hstop, hheard⟩
  | past _ hlooks hheard => exact ⟨hlooks.of_done hpc, hheard⟩
  | ahead _ _ hdone => exact absurd hpc hdone

/-- What does not concern the thread leaves it where it stands. -/
theorem Stands.frame (h : Stands s t c) (hpc : t'.pc c = t.pc c)
    (hshared : ¬(t.pc c).Done → t'.shared.users = t.shared.users ∧
      (t.shared.isOpen c = true → t'.shared.isOpen c = true))
    (hheard : heard c t'.shared.deeds = heard c t.shared.deeds)
    (haccepted : s.accepted ⊆ s'.accepted)
    (hstop : s'.stop c = s.stop c) (hhandled : handled c s'.history = handled c s.history) :
    Stands s' t' c := by
  by_cases hdone : (t.pc c).Done
  · obtain ⟨hrests, hboth⟩ := h.of_done hdone
    refine .rests ?_ ?_
    · rw [hpc, hstop, hrests]
    · rw [hstop, hheard, hhandled]
      exact hboth
  obtain ⟨husers, hopen⟩ := hshared hdone
  cases h with
  | rests hrests => exact absurd (hrests ▸ Pc.done_ofStop _) hdone
  | past hmem hlooks hboth =>
      refine .past (haccepted hmem) ?_ ?_
      · rw [hpc, husers, hstop]
        exact hlooks
      · rw [hstop, hheard, hhandled]
        exact hboth
  | ahead hpend hisOpen _ hreads hcarries =>
      refine .ahead ⟨haccepted hpend.mem, hstop.trans hpend.stop, hpend.data, ?_⟩
        (hopen hisOpen) ?_ hreads ?_
      · rw [hheard, hhandled, hpend.heard]
      · rw [hpc]
        exact hdone
      · rw [hpc, husers]
        exact hcarries

/-- The handler takes its turn when the thread has done what the dispatch does, or has only looks
left. -/
theorem Linear.serve (hpend : Pending s t c addr newStr) (hopen : s.world.isOpen c = true)
    (hothers : ∀ c', c' ≠ c → ¬(t.pc c').Writes ∧ Stands s t c') (hself : ¬(t.pc c).Writes)
    (hlooks : Looks c addr t.shared.users (t.pc c)
      (.ofStop (stopAfter ((dispatch c addr newStr).run s.world).1)))
    (hworld : t.shared.world = ((dispatch c addr newStr).run s.world).2)
    (haccepted : t.shared.accepted = s.accepted) :
    ∃ s', Reaches (· = s) (fun _ _ => True) Listener.Step s' ∧ Linear t s' := by
  obtain ⟨data, hdata, hreq⟩ := hpend.data
  have hturn := Listener.turn_of_request hopen hdata hreq addr
  have hstep : Listener.Step s (.receives c data) (s.serve c addr newStr) :=
    hturn ▸ .receives hpend.mem hpend.stop
  refine ⟨_, .step (.start rfl) trivial hstep, .free (fun c' => ?_) hworld haccepted fun c' => ?_⟩
  · by_cases hc : c' = c
    · rw [hc]
      exact hself
    · exact (hothers c' hc).1
  · by_cases hc : c' = c
    · rw [hc]
      have hstop : (s.serve c addr newStr).stop c =
          stopAfter ((dispatch c addr newStr).run s.world).1 :=
        Function.update_self ..
      refine .past hpend.mem ?_ fun _ => ?_
      · rw [hstop]
        exact hlooks
      · rw [hpend.heard, handled_serve_self]
    · exact (hothers c' hc).2.frame rfl (fun _ => ⟨rfl, id⟩) rfl (List.Subset.refl _)
        (Listener.serve_stop_of_ne hc addr newStr) (handled_serve_of_ne hc addr newStr)

/-- A step of one thread leaves the others where they stand, unless it changes the list or a
connection. -/
theorem Stands.go_of_ne (h : Stands s t c) {conn : Conn} (hc : c ≠ conn) {a : Act} (pc : Pc)
    (hshared : ¬(t.pc c).Done → (t.shared.after conn a).users = t.shared.users ∧
      (t.shared.after conn a).isOpen = t.shared.isOpen) : Stands s (t.go conn a pc) c := by
  refine h.frame (go_pc_of_ne hc a pc) (fun hdone => ?_) ?_ (List.Subset.refl _) rfl rfl
  · obtain ⟨husers, hisOpen⟩ := hshared hdone
    refine ⟨husers, fun hopen => ?_⟩
    show (t.shared.after conn a).isOpen c = true
    rw [hisOpen]
    exact hopen
  · unfold go
    rw [Shared.deeds_after, heard_of_ne hc]

/-- `recv` returns in a thread. -/
theorem Linear.receives (h : Linear t s) {conn : Conn} (hmem : (conn, addr) ∈ t.shared.accepted)
    (hrecv : t.pc conn = .recv) {data : Bytes} (hcond : t.Locked (.receives conn data)) :
    ∃ s', Reaches (· = s) (fun _ _ => True) Listener.Step s' ∧
      Linear (t.go conn (.receives data) (.received (t.shared.isOpen conn) data)) s' := by
  obtain ⟨hfree, halone⟩ := hcond
  cases h with
  | held hwrites => exact absurd hwrites (hfree _)
  | free _ hworld haccepted hstands =>
      obtain ⟨hstop, hheard⟩ := (hstands conn).of_done (hrecv ▸ trivial)
      have hwaiting : s.stop conn = .waiting := Pc.ofStop_eq_recv_iff.mp (hstop.symm.trans hrecv)
      have hisOpen : t.shared.isOpen conn = s.world.isOpen conn := by
        rw [← hworld]
        rfl
      rw [haccepted] at hmem
      generalize hpc : Pc.received (t.shared.isOpen conn) data = pc at halone
      have hothers : ∀ c, c ≠ conn → ¬((t.go conn (.receives data) pc).pc c).Writes ∧
          Stands s (t.go conn (.receives data) pc) c := fun c hc => by
        refine ⟨?_, (hstands c).go_of_ne hc pc fun _ => ⟨rfl, rfl⟩⟩
        rw [go_pc_of_ne hc]
        exact hfree c
      have hself := go_pc_self t conn (.receives data) pc
      have hheard' : heard conn (t.go conn (.receives data) pc).shared.deeds =
          handled conn s.history ++ [requestString data] := by
        unfold go
        rw [Shared.deeds_after, heard_receives, hheard hwaiting]
      rcases s.turn_received conn addr data with
        ⟨stop, hne, hturn, hends⟩ | ⟨newStr, hopen, hdata, hreq, hturn, hstarts⟩
      · -- there is no request, and the thread ends
        have hst : Listener.Step s (.receives conn data) (s.finish conn stop) :=
          hturn ▸ .receives hmem hwaiting
        rw [← hisOpen, hpc] at hends
        refine ⟨_, .step (.start rfl) trivial hst, .free (fun c => ?_) hworld haccepted fun c => ?_⟩
        · by_cases hc : c = conn
          · rw [hc, hself, hends]
            exact Pc.not_writes_of_done (Pc.done_ofStop stop)
          · exact (hothers c hc).1
        · by_cases hc : c = conn
          · have hfinish : (s.finish conn stop).stop conn = stop := Function.update_self ..
            rw [hc]
            refine .rests ?_ fun hwait => ?_
            · rw [hself, hends, hfinish]
            · rw [hfinish] at hwait
              exact absurd hwait hne
          · exact (hothers c hc).2.frame rfl (fun _ => ⟨rfl, id⟩) rfl (List.Subset.refl _)
              (Listener.finish_stop_of_ne hc stop) rfl
      · rw [← hisOpen, hpc] at hstarts
        rw [hreq] at hheard'
        have hpend : Pending s (t.go conn (.receives data) pc) conn addr newStr :=
          ⟨hmem, hwaiting, ⟨data, hdata, hreq⟩, hheard'⟩
        have hcarries : ∀ σ, CarriesOut conn addr pc σ (dispatch conn addr newStr) Pc.loopCtl := by
          rw [hstarts]
          exact carriesOut_dispatch newStr
        obtain ⟨σ, hgoes, hσ, -⟩ := hcarries (t.go conn (.receives data) pc).shared
        have hworld' : (t.go conn (.receives data) pc).shared.world = s.world := hworld
        rw [goesOn_loopCtl, hworld'] at hgoes
        rw [hworld'] at hσ
        by_cases hwrites : pc.Writes
        · -- the thread holds the lock alone, and the handler waits until it is done
          refine ⟨s, .start rfl,
            .held (c := conn) ?_ (fun c hc => ⟨?_, (hothers c hc).2⟩) hpend hopen haccepted ?_ hσ⟩
          · rw [hself]
            exact hwrites
          · rw [go_pc_of_ne hc]
            exact halone hwrites c
          · rw [hself]
            exact hgoes
        by_cases hdone : pc.Done
        · -- a request that cannot be split
          obtain ⟨hends, rfl⟩ := hgoes.of_done hdone
          refine Linear.serve hpend hopen hothers ?_ ?_ hσ haccepted
          · rw [hself]
            exact hwrites
          · rw [hself, ← hends]
            exact .refl _ _
        · refine ⟨s, .start rfl, .free (fun c => ?_) hworld haccepted fun c => ?_⟩
          · by_cases hc : c = conn
            · rw [hc, hself]
              exact hwrites
            · exact (hothers c hc).1
          · by_cases hc : c = conn
            · rw [hc]
              refine .ahead hpend (hisOpen.trans hopen) ?_ (hstarts ▸ hwrites) fun σ _ => ?_
              · rw [hself]
                exact hdone
              · rw [hself]
                exact hcarries σ
            · exact (hothers c hc).2

/-- A thread that does not write takes a step. -/
theorem Linear.reads (hs : s.Coherent) (hfree : ∀ c, ¬(t.pc c).Writes)
    (hworld : t.shared.world = s.world)
    (haccepted : t.shared.accepted = s.accepted) (hstands : ∀ c, Stands s t c)
    {conn : Conn} {a : Act} {pc : Pc} (hmem : (conn, addr) ∈ t.shared.accepted)
    (hstep : (t.pc conn).next conn addr t.shared = some (a, pc)) :
    ∃ s', Reaches (· = s) (fun _ _ => True) Listener.Step s' ∧ Linear (t.go conn a pc) s' := by
  rw [haccepted] at hmem
  have hrecv : t.pc conn ≠ .recv := fun heq => by
    rw [heq] at hstep
    cases hstep
  obtain ⟨hact, hwrites⟩ := (Pc.moves_of_next hstep).reads (hfree conn) hrecv
  have hreceives := (Pc.moves_of_next hstep).ne_receives hrecv
  have hshared : (t.shared.after conn a).users = t.shared.users ∧
      (t.shared.after conn a).isOpen = t.shared.isOpen := by
    obtain rfl | ⟨dest, body, rfl⟩ := hact <;> exact ⟨rfl, rfl⟩
  have hself := go_pc_self t conn a pc
  have hheard : heard conn (t.go conn a pc).shared.deeds = heard conn t.shared.deeds := by
    unfold go
    rw [Shared.deeds_after, heard_of_ne_receives hreceives]
  have hothers : ∀ c, c ≠ conn → ¬((t.go conn a pc).pc c).Writes ∧ Stands s (t.go conn a pc) c :=
    fun c hc => by
      refine ⟨?_, (hstands c).go_of_ne hc pc fun _ => hshared⟩
      rw [go_pc_of_ne hc]
      exact hfree c
  have hnone : ∀ c, ¬((t.go conn a pc).pc c).Writes := fun c => by
    by_cases hc : c = conn
    · rw [hc, hself]
      exact hwrites
    · exact (hothers c hc).1
  have haccepted' : (t.go conn a pc).shared.accepted = s.accepted :=
    (Shared.accepted_after t.shared conn a).trans haccepted
  cases hstands conn with
  | rests hrests => exact absurd (hrests ▸ Pc.done_ofStop _) (Pc.not_done_of_next hstep)
  | past hmem' hlooks hboth =>
      obtain rfl := hs.addr_unique hmem hmem'
      obtain ⟨rfl, hlooks'⟩ := hlooks.next (Pc.done_ofStop _) hstep
      refine ⟨s, .start rfl, .free hnone hworld haccepted' fun c => ?_⟩
      by_cases hc : c = conn
      · rw [hc]
        refine .past hmem' ?_ ?_
        · rw [hself]
          exact hlooks'
        · rw [hheard]
          exact hboth
      · exact (hothers c hc).2
  | @ahead _ newStr hpend hisOpen hdone hreads hcarries =>
      obtain rfl := hs.addr_unique hmem hpend.mem
      have hpend' : Pending s (t.go conn a pc) conn addr newStr :=
        ⟨hpend.mem, hpend.stop, hpend.data, hheard.trans hpend.heard⟩
      have hopen : s.world.isOpen conn = true := by
        rw [← hworld]
        exact hisOpen
      obtain ⟨σ, hgoes, hσ, -⟩ := hcarries t.shared rfl
      rw [goesOn_loopCtl, hworld] at hgoes
      rw [hworld] at hσ
      have hnext := hgoes.next (Pc.done_ofStop _) hstep
      have hsent : σ.sent.length ≤ t.shared.sent.length + 1 := by
        have hle := length_sent_dispatch_le conn addr hreads hs.names
        rw [← hσ, ← hworld] at hle
        exact hle
      obtain rfl | ⟨dest, body, rfl⟩ := hact
      · by_cases hends : pc.Done
        · -- the request was handled without a frame
          obtain ⟨hstop, rfl⟩ := hnext.of_done hends
          refine Linear.serve hpend' hopen hothers (hnone conn) ?_ hσ haccepted'
          rw [hself, ← hstop]
          exact .refl _ _
        · refine ⟨s, .start rfl, .free hnone hworld haccepted' fun c => ?_⟩
          by_cases hc : c = conn
          · rw [hc]
            refine .ahead hpend' hisOpen ?_ hreads fun τ hτ => ?_
            · rw [hself]
              exact hends
            · rw [hself]
              refine CarriesOut.after_look (fun out => ?_) hcarries hstep τ hτ
              rw [goesOn_loopCtl]
              exact Pc.done_ofStop _
          · exact (hothers c hc).2
      · -- the frame is sent, and the rest is looks
        obtain ⟨hlooks, hsame⟩ := hnext.looks hwrites (hsent.trans (by
          simp [Shared.after, Shared.act, Shared.recorded]))
        refine Linear.serve hpend' hopen hothers (hnone conn) ?_ (hsame.symm.trans hσ) haccepted'
        rw [hself]
        exact hlooks

/-- A thread takes a step. -/
theorem Linear.advances (hs : s.Coherent) (h : Linear t s) {conn : Conn} {a : Act} {pc : Pc}
    (hmem : (conn, addr) ∈ t.shared.accepted)
    (hstep : (t.pc conn).next conn addr t.shared = some (a, pc)) :
    ∃ s', Reaches (· = s) (fun _ _ => True) Listener.Step s' ∧ Linear (t.go conn a pc) s' := by
  cases h with
  | free hfree hworld haccepted hstands =>
      exact Linear.reads hs hfree hworld haccepted hstands hmem hstep
  | @held c addr' newStr σ hwrites hothers hpend hopen haccepted hgoes hσ =>
      -- nobody but the thread that writes has a next step
      obtain rfl : conn = c := by
        by_contra hc
        exact Pc.not_done_of_next hstep (hothers conn hc).1
      rw [haccepted] at hmem
      obtain rfl := hs.addr_unique hmem hpend.mem
      have hrecv : t.pc conn ≠ .recv := fun heq => by
        rw [heq] at hwrites
        exact hwrites
      have hheard : heard conn (t.go conn a pc).shared.deeds = heard conn t.shared.deeds := by
        unfold go
        rw [Shared.deeds_after, heard_of_ne_receives ((Pc.moves_of_next hstep).ne_receives hrecv)]
      have hpend' : Pending s (t.go conn a pc) conn addr newStr :=
        ⟨hpend.mem, hpend.stop, hpend.data, hheard.trans hpend.heard⟩
      have hothers' : ∀ c, c ≠ conn → ((t.go conn a pc).pc c).Done ∧ Stands s (t.go conn a pc) c :=
        fun c hc => by
          obtain ⟨hdone, hstands⟩ := hothers c hc
          refine ⟨?_, hstands.go_of_ne hc pc fun hnot => absurd hdone hnot⟩
          rw [go_pc_of_ne hc]
          exact hdone
      have haccepted' : (t.go conn a pc).shared.accepted = s.accepted :=
        (Shared.accepted_after t.shared conn a).trans haccepted
      have hself := go_pc_self t conn a pc
      have hnext := hgoes.next (Pc.done_ofStop _) hstep
      rcases (Pc.moves_of_next hstep).writes hwrites with hwrites' | hdone
      · refine ⟨s, .start rfl, .held (c := conn) ?_ hothers' hpend' hopen haccepted' ?_ hσ⟩
        · rw [hself]
          exact hwrites'
        · rw [hself]
          exact hnext
      · obtain ⟨hstop, rfl⟩ := hnext.of_done hdone
        refine Linear.serve hpend' hopen (fun c hc => ⟨Pc.not_writes_of_done (hothers' c hc).1,
          (hothers' c hc).2⟩) ?_ ?_ hσ haccepted'
        · rw [hself]
          exact Pc.not_writes_of_done hdone
        · rw [hself, ← hstop]
          exact .refl _ _

end Linear

/-- The other server does what the threads do under the lock. -/
def lockedSimulation :
    Simulation Threads.Initial Locked Threads.Step Listener.Initial (fun _ _ => True)
    Listener.Step where
  rel := Linear
  start t ht := by
    obtain ⟨husers, hsent, haccepted, hdeeds, hpc⟩ := ht
    refine ⟨⟨⟨[], t.shared.isOpen, []⟩, [], fun _ => .waiting, []⟩,
      ⟨⟨rfl, rfl⟩, rfl, fun _ => rfl, rfl⟩, .free (fun c => ?_) ?_ haccepted fun c =>
      .rests (hpc c) fun _ => ?_⟩
    · rw [hpc c]
      exact id
    · unfold Shared.world
      rw [husers, hsent]
      rfl
    · rw [hdeeds]
      rfl
  next t e t' s _ hs h hcond hst := by
    have hcoherent := Listener.coherent hs
    cases hst with
    | receives hmem hrecv => exact h.receives hmem hrecv hcond
    | advances hmem hstep => exact h.advances hcoherent hmem (Pc.next_of_step hstep)
    | @accepts conn addr hnew haddr =>
        cases h with
        | held hwrites => exact absurd hwrites (hcond _)
        | free hfree hworld haccepted hstands =>
            have hisOpen : t.shared.isOpen = s.world.isOpen := congrArg World.isOpen hworld
            have hst' : Listener.Step s (.accepts conn addr) (s.accept conn addr) :=
              .accepts (haccepted ▸ hnew) (haccepted ▸ hisOpen ▸ haddr)
            refine ⟨_, .step (.start rfl) trivial hst', .free hfree ?_ ?_ fun c => ?_⟩
            · show World.mk t.shared.world.users (Function.update t.shared.isOpen conn true) _ = _
              rw [hworld, hisOpen]
              exact congrArg (World.mk _ _) (congrArg World.sent hworld)
            · exact congrArg (· ++ [(conn, addr)]) haccepted
            · refine (hstands c).frame rfl (fun _ => ⟨rfl, fun hopen => ?_⟩) rfl
                (List.subset_append_left _ _) rfl rfl
              show Function.update t.shared.isOpen conn true c = true
              by_cases hc : c = conn
              · rw [hc, Function.update_self]
              · rw [Function.update_of_ne hc]
                exact hopen
    | @breaks conn =>
        obtain ⟨hfree, hdone⟩ := hcond
        cases h with
        | held hwrites => exact absurd hwrites (hfree _)
        | free _ hworld haccepted hstands =>
            have hisOpen : t.shared.isOpen = s.world.isOpen := congrArg World.isOpen hworld
            have hbreaks : Listener.Step s (.breaks conn) (s.sever conn) := .breaks
            refine ⟨_, .step (.start rfl) trivial hbreaks, .free hfree ?_ haccepted fun c => ?_⟩
            · show World.mk t.shared.world.users (Function.update t.shared.isOpen conn false) _ = _
              rw [hworld, hisOpen]
              exact congrArg (World.mk _ _) (congrArg World.sent hworld)
            · refine (hstands c).frame rfl (fun hnot => ⟨rfl, fun hopen => ?_⟩)
                rfl (List.Subset.refl _) rfl
                rfl
              have hc : c ≠ conn := fun heq => hnot (heq ▸ hdone)
              show Function.update t.shared.isOpen conn false c = true
              rw [Function.update_of_ne hc]
              exact hopen

/-- **Under the lock the threads do what the server does that handles one request at a time.** Where
nobody writes, a run of that server leads to the same list, the same connections and the same
frames, and where a thread is done, its handler stands there and has handled what the thread got
from `recv`, in order. -/
theorem linearizable {t : Threads} (h : Reaches Initial Locked Step t)
    (hfree : ∀ c, ¬(t.pc c).Writes) :
    ∃ s, Reachable Listener.Initial Listener.Step s ∧ t.shared.world = s.world ∧
      t.shared.accepted = s.accepted ∧ ∀ c, (t.pc c).Done → t.pc c = .ofStop (s.stop c) ∧
        (t.pc c = .recv → heard c t.shared.deeds = handled c s.history) := by
  obtain ⟨s, hs, hlinear⟩ := lockedSimulation.reaches h
  have hlinear' : Linear t s := hlinear
  cases hlinear' with
  | held hwrites => exact absurd hwrites (hfree _)
  | free _ hworld haccepted hstands =>
      refine ⟨s, hs, hworld, haccepted, fun c hdone => ?_⟩
      obtain ⟨hstop, hheard⟩ := (hstands c).of_done hdone
      exact ⟨hstop, fun hrecv => hheard (Pc.ofStop_eq_recv_iff.mp (hstop.symm.trans hrecv))⟩

section Overlap

variable {t : Threads} (h : Reaches Initial Locked Step t) {conn : Conn} {addr : Addr}
  (hmem : (conn, addr) ∈ t.shared.accepted) (hopen : t.shared.isOpen conn = true)
include h hmem hopen

/-- `ME2U` is received while others are handled that do not write. -/
theorem reaches_me2u (hfree : ∀ c, ¬(t.pc c).Writes) (hrecv : t.pc conn = .recv) :
    Reaches Initial Locked Step (t.go conn (.receives (wire Verb.me2u)) (.reply Verb.u2em)) := by
  have hreply : Pc.received (t.shared.isOpen conn) (wire Verb.me2u) = .reply Verb.u2em := by
    rw [hopen, received_me2u]
  have hlocked : t.Locked (.receives conn (wire Verb.me2u)) := by
    refine ⟨hfree, fun hwrites => ?_⟩
    rw [hreply] at hwrites
    exact hwrites.elim
  rw [← hreply]
  exact .step h hlocked (.receives hmem hrecv)

/-- An answer is sent. -/
theorem reaches_reply {body : Str} (hpc : t.pc conn = .reply body) :
    Reaches Initial Locked Step (t.go conn (.sends conn body) .recv) := by
  refine .step h (e := .advances conn) trivial (.of_next hmem ?_)
  rw [hpc]
  exact congrArg some (congrArg (Prod.mk _) (if_pos hopen))

end Overlap

/-- Two clients have connected. -/
private def bothConnected : Threads :=
  (Threads.accept ⟨⟨[], 0, fun _ => false, [], [], []⟩, fun _ => .recv⟩ 0 0).accept 1 1

/-- Both have sent `ME2U`, and the second one is answered before the first one. -/
private def bothAnswered : Threads :=
  (((bothConnected.go 0 (.receives (wire Verb.me2u)) (.reply Verb.u2em)).go 1
    (.receives (wire Verb.me2u)) (.reply Verb.u2em)).go 1 (.sends 1 Verb.u2em)
    .recv).go 0 (.sends 0 Verb.u2em) .recv

private theorem reaches_bothAnswered : Reaches Initial Locked Step bothAnswered := by
  have hfirst : Reaches Initial Locked Step
      (Threads.accept ⟨⟨[], 0, fun _ => false, [], [], []⟩, fun _ => .recv⟩ 0 0) :=
    .step (e := .accepts 0 0) (.start ⟨rfl, rfl, rfl, rfl, fun _ => rfl⟩) (fun _ => id)
      (.accepts (by simp) (by simp))
  have hconnected : Reaches Initial Locked Step bothConnected :=
    .step (e := .accepts 1 1) hfirst (fun _ => id) (.accepts (by decide) (by decide))
  have hmem₀ : ((0 : Conn), (0 : Addr)) ∈ bothConnected.shared.accepted := by decide
  have hmem₁ : ((1 : Conn), (1 : Addr)) ∈ bothConnected.shared.accepted := by decide
  have hheard := reaches_me2u hconnected hmem₀ rfl (fun _ => id) rfl
  have hboth := reaches_me2u hheard hmem₁ rfl (fun c => by
    by_cases hc : c = 0
    · rw [hc]
      exact id
    · rw [go_pc_of_ne hc]
      exact id) rfl
  exact reaches_reply (reaches_reply hboth hmem₁ rfl rfl) hmem₀ rfl rfl

/-- Requests can overlap. -/
theorem linearizable_overlap : ∃ s, Reachable Listener.Initial Listener.Step s ∧
    bothAnswered.shared.world = s.world ∧ handled 0 s.history = [some Verb.me2u] ∧
      handled 1 s.history = [some Verb.me2u] := by
  have hrecv : ∀ c, bothAnswered.pc c = .recv := fun c => by
    by_cases hc : c = 0
    · rw [hc]
      rfl
    by_cases hc' : c = 1
    · rw [hc']
      rfl
    unfold bothAnswered
    rw [go_pc_of_ne hc, go_pc_of_ne hc', go_pc_of_ne hc', go_pc_of_ne hc]
    rfl
  have hheard : ∀ c, c = 0 ∨ c = 1 → heard c bothAnswered.shared.deeds = [some Verb.me2u] := by
    have hstr : requestString (wire Verb.me2u) = some Verb.me2u :=
      requestString_wire (show Request.me2u.CRFree from trivial)
    rintro c (rfl | rfl) <;> exact congrArg (fun x => [x]) hstr
  obtain ⟨s, hs, hworld, -, hboth⟩ := linearizable reaches_bothAnswered fun c => by
    rw [hrecv c]
    exact id
  have hdone : ∀ c, (bothAnswered.pc c).Done := fun c => by
    rw [hrecv c]
    trivial
  refine ⟨s, hs, hworld, ?_, ?_⟩
  · rw [← (hboth 0 (hdone 0)).2 (hrecv 0), hheard 0 (.inl rfl)]
  · rw [← (hboth 1 (hdone 1)).2 (hrecv 1), hheard 1 (.inr rfl)]

end Threads

end ME2U.Server
