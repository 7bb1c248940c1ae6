import ME2U.Server.Identity

/-!
# Entries of connections that are gone

`handle_user` removes an entry in the branch of `BYE` only. At the end of the stream, after a taken
name and after an exception it just ends, and the entry stays.

* `noGhosts`: where no handler ends while there is an entry of its connection, no connection whose
  handler has ended has one, and its name is free.
* `not_noGhosts`: a client that closes its connection leaves its entry behind.
-/

namespace ME2U.Server.Listener

/-- No entry is of a connection whose handler has ended. A name that only such connections have
registered is free: it can be registered on any open connection, and a message to it is answered
that there is nobody of the name. -/
def NoGhosts (s : Listener) : Prop :=
  (∀ c, s.stop c ≠ .waiting → ∀ u ∈ s.world.users, u.conn ≠ c) ∧
    ∀ name, (∀ c, name ∈ registeredBy c s.history → s.stop c ≠ .waiting) →
      ∀ conn addr, s.world.isOpen conn = true →
        (dispatch conn addr (Request.iam name).render).run s.world =
          (.ok .again, s.world.loggedIn conn addr name) ∧
        (' ' ∉ name → ∀ msg, (dispatch conn addr (Request.toUser name msg).render).run s.world =
          (.ok .again, s.world.logged conn (encode (ending (Verb.edne ++ ' ' :: name)))))

/-- The handler ends on what it receives. -/
def Ends (s : Listener) (conn : Conn) (addr : Addr) (data : Bytes) : Prop :=
  s.NoRequest conn data ∨ ∃ newStr, requestString data = some newStr ∧
    ¬Answerable addr s.world newStr

/-- The entry is the one that a `BYE` on the open connection removes. -/
def Removed (s : Listener) (conn : Conn) (addr : Addr) (data : Bytes) (u : User) : Prop :=
  s.world.isOpen conn = true ∧ requestString data = some Verb.bye ∧
    s.world.users.find? (·.addr == addr) = some u

/-- A handler that ends leaves no entry of its connection behind: there is none, but for the one
that a `BYE` removes. -/
def LeavesNone (s : Listener) : ListenerEvent → Prop
  | .receives conn data => ∀ addr, (conn, addr) ∈ s.accepted → s.Ends conn addr data →
      ∀ u ∈ s.world.users, u.conn = conn → s.Removed conn addr data u
  | _ => True

/-- A `BYE` removes the entry found, if its connection is open. -/
theorem notMem_serve_bye {s : Listener} (hnd : (s.world.users.map User.name).Nodup) {conn : Conn}
    {addr : Addr} {u : User} (hfind : s.world.users.find? (·.addr == addr) = some u)
    (hopen : s.world.isOpen u.conn = true) : u ∉ (s.serve conn addr Verb.bye).world.users := by
  have hiam : Verb.bye.take 3 ≠ Verb.iam := by decide
  rw [serve_users, World.usersAfter, if_neg hiam, if_pos rfl, hfind]
  simp only [if_pos hopen]
  exact (hnd.of_map _).not_mem_erase

/-- A request after which the handler is not in its loop leaves no entry of the connection, if none
is there but the one that it removes. -/
theorem forall_ne_serve {s : Listener} (h : s.Coherent) {conn : Conn} {addr : Addr} {data : Bytes}
    {newStr : Str} (hmem : (conn, addr) ∈ s.accepted) (hopen : s.world.isOpen conn = true)
    (hstr : requestString data = some newStr) (hcond : s.LeavesNone (.receives conn data))
    (hstop : (s.serve conn addr newStr).stop conn ≠ .waiting) :
    ∀ u ∈ (s.serve conn addr newStr).world.users, u.conn ≠ conn := by
  rw [ne_eq, serve_stop_eq_waiting_iff hopen] at hstop
  have hleaves := hcond addr hmem (.inr ⟨newStr, hstr, hstop⟩)
  intro u hu heq
  have hu' := hu
  rw [serve_users] at hu'
  rcases mem_usersAfter hu' with hold | ⟨hiam, -, hfree, -⟩
  · obtain ⟨-, hbye, hfind⟩ := hleaves u hold heq
    obtain rfl : newStr = Verb.bye := Option.some.inj (hstr.symm.trans hbye)
    exact notMem_serve_bye h.names hfind (heq ▸ hopen) hu
  · -- a free name is answered
    apply hstop
    unfold Answerable
    rwa [if_pos hiam, Serviceable]

/-- No entry is of a connection whose handler has ended. -/
def Left (s : Listener) : Prop := ∀ c, s.stop c ≠ .waiting → ∀ u ∈ s.world.users, u.conn ≠ c

/-- A handler that ends without a request leaves no entry behind. -/
theorem Left.finish {s : Listener} (h : s.Left) {conn : Conn} {addr : Addr} {data : Bytes}
    (hcond : s.LeavesNone (.receives conn data)) (hmem : (conn, addr) ∈ s.accepted)
    (hno : s.NoRequest conn data) (stop : Stop) : (s.finish conn stop).Left := by
  intro c hc u hu heq
  by_cases hce : c = conn
  · subst hce
    obtain ⟨hopen, hbye, -⟩ := hcond addr hmem (.inl hno) u hu heq
    rcases hno with hclosed | rfl | hnone
    · rw [hopen] at hclosed
      cases hclosed
    · exact absurd hbye (by decide)
    · rw [hbye] at hnone
      cases hnone
  · rw [finish_stop_of_ne hce] at hc
    exact h c hc u hu heq

/-- Nor does one that ends on a request. -/
theorem Left.serve {s : Listener} (h : s.Left) (hs : s.Coherent) {conn : Conn}
    {addr : Addr} {data : Bytes}
    {newStr : Str} (hcond : s.LeavesNone (.receives conn data)) (hmem : (conn, addr) ∈ s.accepted)
    (hopen : s.world.isOpen conn = true) (hstr : requestString data = some newStr) :
    (s.serve conn addr newStr).Left := by
  intro c hc u hu
  by_cases hce : c = conn
  · subst hce
    exact forall_ne_serve hs hmem hopen hstr hcond hc u hu
  · rw [serve_stop_of_ne hce] at hc
    rw [serve_users] at hu
    rcases mem_usersAfter hu with hold | ⟨-, rfl, -⟩
    · exact h c hc u hold
    · exact fun heq => hce heq.symm

/-- The invariant holds in every run that meets the condition. -/
theorem left_of_reaches {s : Listener} (h : Reaches Initial LeavesNone Step s) : s.Left := by
  have hboth : s.Coherent ∧ s.Left := by
    refine invariant (I := fun s => s.Coherent ∧ s.Left) ?_ ?_ ?_ ?_ ?_ h
    · intro s hs
      exact ⟨coherent (.start hs : Reachable Initial Step s), fun c hc => absurd (hs.2.2.1 c) hc⟩
    · rintro s conn addr ⟨hs, hleft⟩ - hnew haddr
      exact ⟨hs.accept hnew haddr, hleft⟩
    · rintro s conn addr data stop ⟨hs, hleft⟩ hcond hmem hno -
      exact ⟨hs.finish conn stop, hleft.finish hcond hmem hno stop⟩
    · rintro s conn addr data newStr ⟨hs, hleft⟩ hcond hmem - hopen hstr -
      exact ⟨hs.serve hmem newStr, hleft.serve hs hcond hmem hopen hstr⟩
    · rintro s conn ⟨hs, hleft⟩ -
      exact ⟨hs.sever conn, hleft⟩
  exact hboth.2

/-- **No ghosts.** In a run in which no handler ends while there is an entry of its connection, but
for the one that a `BYE` removes, no entry is of a connection whose handler has ended. -/
theorem noGhosts {s : Listener} (h : Reaches Initial LeavesNone Step s) : s.NoGhosts := by
  have hs : s.Coherent := coherent h
  have hleft : s.Left := left_of_reaches h
  refine ⟨hleft, fun name hgone conn addr hopen => ?_⟩
  have hfree : checkUserExists s.world.users name = false := by
    rw [checkUserExists_eq_false_iff]
    rintro u hu rfl
    exact hleft u.conn (hgone u.conn (hs.own u hu)) u hu rfl
  have hnone : s.world.users.find? (·.name == name) = none := find?_eq_none_of_free hfree
  exact ⟨run_dispatch_iam_of_free conn addr hopen hfree,
    fun hname msg => run_dispatch_toUser_of_none hname hnone hopen addr msg⟩

/-- A client that leaves with a `BYE`, and whose handler then finds the connection closed. -/
theorem noGhosts_bye :
    ((twoClients.serve 0 0 Request.bye.render).turn 0 0 []).stop 0 = .raised .osError ∧
      ((twoClients.serve 0 0 Request.bye.render).turn 0 0 []).NoGhosts := by
  have hbye : requestString (wire Request.bye.render) = some Verb.bye :=
    requestString_wire (show Request.bye.CRFree from trivial)
  have htwo : Reaches Initial LeavesNone Step twoClients := by
    refine reaches_twoClients trivial ?_ trivial ?_
    · intro _ _ _ u hu
      cases hu
    · intro _ _ _ u hu heq
      rw [List.mem_singleton.mp hu] at heq
      exact absurd heq (by decide)
  have hgone : Reaches Initial LeavesNone Step (twoClients.serve 0 0 Request.bye.render) := by
    refine serve_request htwo 0 0 .bye trivial ?_ (by decide) rfl rfl
    intro addr hmem _ u hu heq
    have hu0 : ∀ u ∈ twoClients.world.users, u.conn = 0 → u = ⟨['a'], 0, 0⟩ := by decide
    have haddr : ∀ p ∈ twoClients.accepted, p.1 = 0 → p.2 = 0 := by decide
    obtain rfl := hu0 u hu heq
    obtain rfl : addr = 0 := haddr _ hmem rfl
    exact ⟨rfl, hbye, rfl⟩
  have hclosed : Step (twoClients.serve 0 0 Request.bye.render) (.receives 0 [])
      ((twoClients.serve 0 0 Request.bye.render).turn 0 0 []) := .receives (by decide) rfl
  refine ⟨rfl, noGhosts (.step hgone ?_ hclosed)⟩
  intro _ _ _ u hu heq
  have hnone : ∀ u ∈ (twoClients.serve 0 0 Request.bye.render).world.users, u.conn ≠ 0 := by decide
  exact absurd heq (hnone u hu)

/-- A client that closes its connection stays in the registry. -/
theorem not_noGhosts : ¬∀ s : Listener, Reachable Initial Step s → s.NoGhosts := by
  intro hall
  have hone : Reachable Initial Step oneClient := reaches_oneClient trivial trivial
  have hclosed : Step oneClient (.receives 0 []) (oneClient.turn 0 0 []) :=
    .receives (by decide) rfl
  exact (hall _ (hone.next hclosed)).1 0 (by decide) ⟨['a'], 0, 0⟩ (by decide) rfl

end ME2U.Server.Listener
