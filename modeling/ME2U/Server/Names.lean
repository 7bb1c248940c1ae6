import Mathlib.Data.List.Nodup
import ME2U.Found.Runs
import ME2U.Server.Requests

/-!
# Logins at the same time

The `IAM` branch checks that the name is free, sends `MAI`, sends `MOTD` and appends the user, and
the handler threads take these steps in any order. Between the check and the append a name is
promised but not yet in the registry.

* `Logins.login_alone`: the four steps, taken one after the other, are the `IAM` branch of
  `dispatch`.
* `Logins.names_unique`: in a run in which nobody passes the check for a name that another thread
  holds a promise of, names are pairwise distinct and a name in use was granted to one client.
* `Logins.not_names_unique`: without that, two threads register the same name.
-/

namespace ME2U.Server

/-- Where a handler thread stands in the `IAM` branch.
Source: `server.py` `handle_user` (lines 56–66) -/
inductive IamPc
  /-- In `recv`. -/
  | waiting
  /-- The name was free; `MAI` comes next. -/
  | sendMai (name : Str)
  /-- `MOTD` comes next. -/
  | sendMotd (name : Str)
  /-- The append comes next. -/
  | append (name : Str)
  /-- The name was taken and the loop left. -/
  | left
  /-- A `send` raised, after `MAI` went out for the name if there is one. -/
  | raised (granted : Option Str)
  deriving DecidableEq

/-- The name a thread has been promised without it being in the registry. -/
def IamPc.promised : IamPc → Option Str
  | .sendMai name | .sendMotd name | .append name => some name
  | .raised granted => granted
  | _ => none

/-- The handler threads, one a connection, and what they share. -/
structure Logins where
  /-- The registry, the connections and what was sent. -/
  world : World
  /-- Where the thread of a connection stands. -/
  pc : Conn → IamPc
  /-- The connections `MAI` went out on, each with the name it was for. -/
  granted : List (Conn × Str)

/-- What may happen next. -/
inductive LoginEvent
  /-- A thread receives an `IAM` request and checks the name. -/
  | check (conn : Conn) (name : Str)
  /-- A thread takes its next step in the branch. -/
  | advance (conn : Conn)
  /-- A connection can no longer be sent to. -/
  | drops (conn : Conn)

namespace Logins

variable (peer : Conn → Addr)

/-- No thread has received anything, and the registry is empty. -/
def Initial (s : Logins) : Prop :=
  s.world.users = [] ∧ (∀ c, s.pc c = .waiting) ∧ s.granted = []

/-- A thread moves on. -/
def goto (s : Logins) (conn : Conn) (pc : IamPc) : Logins :=
  { s with pc := Function.update s.pc conn pc }

/-- One step of a thread, atomic. -/
inductive Step : Logins → LoginEvent → Logins → Prop
  | taken {s conn name} : s.pc conn = .waiting → checkUserExists s.world.users name = true →
      Step s (.check conn name) (s.goto conn .left)
  | free {s conn name} : s.pc conn = .waiting → checkUserExists s.world.users name = false →
      Step s (.check conn name) (s.goto conn (.sendMai name))
  | mai {s conn name w} : s.pc conn = .sendMai name →
      (send conn (encode (ending Verb.mai))).run s.world = (.ok (), w) →
      Step s (.advance conn)
        ({ s with world := w, granted := (conn, name) :: s.granted }.goto conn (.sendMotd name))
  | maiRaises {s conn name e w} : s.pc conn = .sendMai name →
      (send conn (encode (ending Verb.mai))).run s.world = (.error e, w) →
      Step s (.advance conn) ({ s with world := w }.goto conn (.raised none))
  | motd {s conn name w} : s.pc conn = .sendMotd name →
      (send conn (encode (ending (Verb.motd ++ ' ' :: motd)))).run s.world = (.ok (), w) →
      Step s (.advance conn) ({ s with world := w }.goto conn (.append name))
  | motdRaises {s conn name e w} : s.pc conn = .sendMotd name →
      (send conn (encode (ending (Verb.motd ++ ' ' :: motd)))).run s.world = (.error e, w) →
      Step s (.advance conn) ({ s with world := w }.goto conn (.raised (some name)))
  | append {s conn name} : s.pc conn = .append name →
      Step s (.advance conn)
        ({ s with world := { s.world with
            users := s.world.users ++ [(⟨name, conn, peer conn⟩ : User)] } }.goto conn .waiting)
  | drops {s conn} :
      Step s (.drops conn)
        { s with world := { s.world with isOpen := Function.update s.world.isOpen conn false } }

/-- Nobody passes the check for a name that another thread has been promised. -/
def Serialized (s : Logins) : LoginEvent → Prop
  | .check conn name => checkUserExists s.world.users name = false →
      ∀ other, other ≠ conn → (s.pc other).promised ≠ some name
  | _ => True

/-! ## The invariant -/

/-- Names are distinct, a promised name is promised once and not in use, and a name was granted to
the client that has it or is promised it. -/
structure Unique (s : Logins) : Prop where
  /-- The names in use are distinct. -/
  nodup : (s.world.users.map User.name).Nodup
  /-- A promised name is not in use. -/
  fresh : ∀ c name, (s.pc c).promised = some name → name ∉ s.world.users.map User.name
  /-- A name is promised to one thread. -/
  single : ∀ c d name, (s.pc c).promised = some name → (s.pc d).promised = some name → c = d
  /-- A granted name is promised or in use. -/
  backed : ∀ p ∈ s.granted, (s.pc p.1).promised = some p.2 ∨
    ∃ u ∈ s.world.users, u.conn = p.1 ∧ u.name = p.2
  /-- Before `MAI` the name was not granted to the thread's connection. -/
  ungranted : ∀ c name, s.pc c = .sendMai name → (c, name) ∉ s.granted

theorem goto_pc (s : Logins) (c d : Conn) (pc : IamPc) :
    (s.goto c pc).pc d = if d = c then pc else s.pc d := Function.update_apply ..

/-- A thread that keeps its promise, or had none, may move on. -/
theorem Unique.goto {s : Logins} (h : s.Unique) {c : Conn} {pc : IamPc} {w : World}
    {granted : List (Conn × Str)} (husers : w.users = s.world.users)
    (hpc : pc.promised = (s.pc c).promised) (hmai : ∀ name, pc ≠ .sendMai name)
    (hgranted : ∀ p ∈ granted, p ∈ s.granted ∨ p.1 = c ∧ (s.pc p.1).promised = some p.2) :
    ({ s with world := w, granted := granted }.goto c pc).Unique := by
  have hsame : ∀ d, (({ s with world := w, granted := granted }.goto c pc).pc d).promised =
      (s.pc d).promised := by
    intro d
    rw [goto_pc]
    split_ifs with hd
    · rw [hpc, hd]
    · rfl
  refine ⟨?_, ?_, ?_, ?_, ?_⟩
  · show (w.users.map User.name).Nodup
    rw [husers]
    exact h.nodup
  · intro d name hd
    show name ∉ w.users.map User.name
    rw [husers]
    exact h.fresh d name (by rwa [hsame] at hd)
  · intro d e name hd he
    exact h.single d e name (by rwa [hsame] at hd) (by rwa [hsame] at he)
  · intro p hp
    show _ ∨ ∃ u ∈ w.users, _
    rw [hsame, husers]
    rcases hgranted p hp with hold | hnew
    · exact h.backed p hold
    · exact .inl hnew.2
  · intro d name hd hmem
    rw [goto_pc] at hd
    split_ifs at hd with hdc
    · exact hmai name hd
    · rcases hgranted _ hmem with hold | hnew
      · exact h.ungranted d name hd hold
      · exact hdc hnew.1

/-- What `send` leaves of the registry. -/
theorem users_of_run_send {c : Conn} {f : Bytes} {w w' : World} {r : Except PyExc Unit}
    (h : (send c f).run w = (r, w')) : w'.users = w.users := by
  rw [run_send] at h
  rw [← (Prod.mk.inj h).2]
  rfl

/-- A thread that passes the check is promised the name. -/
theorem Unique.free {s : Logins} (h : s.Unique) {conn : Conn} {name : Str}
    (hpc : s.pc conn = .waiting) (hfree : checkUserExists s.world.users name = false)
    (hcond : ∀ other, other ≠ conn → (s.pc other).promised ≠ some name) :
    (s.goto conn (.sendMai name)).Unique := by
  have hname : name ∉ s.world.users.map User.name := by
    intro hmem
    obtain ⟨u, hu, rfl⟩ := List.mem_map.mp hmem
    have hex : checkUserExists s.world.users u.name = true :=
      List.any_eq_true.mpr ⟨u, hu, by simp⟩
    rw [hfree] at hex
    cases hex
  have hpromised : ∀ d n, ((s.goto conn (.sendMai name)).pc d).promised = some n →
      (d = conn ∧ n = name) ∨ (d ≠ conn ∧ (s.pc d).promised = some n) := by
    intro d n hd
    rw [goto_pc] at hd
    split_ifs at hd with hdc
    · exact .inl ⟨hdc, (Option.some.inj hd).symm⟩
    · exact .inr ⟨hdc, hd⟩
  refine ⟨h.nodup, ?_, ?_, ?_, ?_⟩
  · intro d n hd
    rcases hpromised d n hd with ⟨-, rfl⟩ | ⟨-, hold⟩
    · exact hname
    · exact h.fresh d n hold
  · intro d e n hd he
    rcases hpromised d n hd with ⟨hdc, hdn⟩ | ⟨hdc, hdold⟩ <;>
      rcases hpromised e n he with ⟨hec, hen⟩ | ⟨hec, heold⟩
    · rw [hdc, hec]
    · exact absurd (hdn ▸ heold) (hcond e hec)
    · exact absurd (hen ▸ hdold) (hcond d hdc)
    · exact h.single d e n hdold heold
  · intro p hp
    rw [goto_pc]
    split_ifs with hpc'
    · apply (h.backed p hp).imp_left
      intro hold
      rw [hpc', hpc] at hold
      cases hold
    · exact h.backed p hp
  · intro d n hd hmem
    rw [goto_pc] at hd
    split_ifs at hd with hdc
    · cases hd
      rcases h.backed _ hmem with hold | ⟨u, hu, -, hun⟩
      · rw [hdc, hpc] at hold
        cases hold
      · exact hname (List.mem_map.mpr ⟨u, hu, hun⟩)
    · exact h.ungranted d n hd hmem

/-- A thread whose `MAI` raises gives up its promise. -/
theorem Unique.giveUp {s : Logins} (h : s.Unique) {conn : Conn} {name : Str} {w : World}
    (husers : w.users = s.world.users) (hpc : s.pc conn = .sendMai name) :
    ({ s with world := w }.goto conn (.raised none)).Unique := by
  have hother : ∀ d n, (({ s with world := w }.goto conn (.raised none)).pc d).promised = some n →
      (s.pc d).promised = some n := by
    intro d n hd
    rw [goto_pc] at hd
    split_ifs at hd
    · cases hd
    · exact hd
  refine ⟨?_, ?_, ?_, ?_, ?_⟩
  · show (w.users.map User.name).Nodup
    rw [husers]
    exact h.nodup
  · intro d n hd
    show n ∉ w.users.map User.name
    rw [husers]
    exact h.fresh d n (hother d n hd)
  · intro d e n hd he
    exact h.single d e n (hother d n hd) (hother e n he)
  · intro p hp
    show _ ∨ ∃ u ∈ w.users, _
    rw [husers, goto_pc]
    apply (h.backed p hp).imp_left
    intro hold
    split_ifs with hpconn
    · rw [hpconn, hpc] at hold
      obtain ⟨c, n⟩ := p
      cases hold
      exact absurd hp (hpconn ▸ h.ungranted conn _ hpc)
    · exact hold
  · intro d n hd
    rw [goto_pc] at hd
    split_ifs at hd
    exact h.ungranted d n hd

/-- A thread that appends turns its promise into an entry. -/
theorem Unique.append {s : Logins} (h : s.Unique) {conn : Conn} {name : Str} {addr : Addr}
    (hpc : s.pc conn = .append name) :
    ({ s with world := { s.world with
        users := s.world.users ++ [(⟨name, conn, addr⟩ : User)] } }.goto conn .waiting).Unique := by
  have hpromised : (s.pc conn).promised = some name := by rw [hpc]; rfl
  have hother : ∀ d n, (({ s with world := { s.world with
      users := s.world.users ++ [(⟨name, conn, addr⟩ : User)] } }.goto conn
        .waiting).pc d).promised =
      some n → d ≠ conn ∧ (s.pc d).promised = some n := by
    intro d n hd
    rw [goto_pc] at hd
    split_ifs at hd with hdc
    · cases hd
    · exact ⟨hdc, hd⟩
  refine ⟨?_, ?_, ?_, ?_, ?_⟩
  · show ((s.world.users ++ [(⟨name, conn, addr⟩ : User)]).map User.name).Nodup
    rw [List.map_append, List.nodup_append]
    refine ⟨h.nodup, by simp, fun a ha b hb => ?_⟩
    obtain rfl : b = name := by simpa using hb
    rintro rfl
    exact h.fresh conn a hpromised ha
  · intro d n hd
    obtain ⟨hdc, hold⟩ := hother d n hd
    show n ∉ (s.world.users ++ [(⟨name, conn, addr⟩ : User)]).map User.name
    simp only [List.map_append, List.map_cons, List.map_nil, List.mem_append, List.mem_singleton,
      not_or]
    refine ⟨h.fresh d n hold, ?_⟩
    rintro rfl
    exact hdc (h.single d conn n hold hpromised)
  · intro d e n hd he
    exact h.single d e n (hother d n hd).2 (hother e n he).2
  · intro p hp
    show _ ∨ ∃ u ∈ s.world.users ++ [(⟨name, conn, addr⟩ : User)], _
    rw [goto_pc]
    rcases h.backed p hp with hold | ⟨u, hu, hu'⟩
    · by_cases hpconn : p.1 = conn
      · refine .inr ⟨⟨name, conn, addr⟩, by simp, hpconn.symm, ?_⟩
        rw [hpconn, hpromised] at hold
        exact Option.some.inj hold
      · exact .inl (by rwa [if_neg hpconn])
    · exact .inr ⟨u, by simp [hu], hu'⟩
  · intro d n hd
    rw [goto_pc] at hd
    split_ifs at hd
    exact h.ungranted d n hd

/-- A step that meets the condition keeps names unique. -/
theorem Unique.step {s s' : Logins} {e : LoginEvent} (h : s.Unique) (hcond : s.Serialized e)
    (hstep : Step peer s e s') : s'.Unique := by
  cases hstep with
  | taken hpc hex => exact h.goto rfl (by rw [hpc]; rfl) (by simp) fun p hp => .inl hp
  | free hpc hfree => exact h.free hpc hfree (hcond hfree)
  | mai hpc hrun =>
      apply h.goto (users_of_run_send hrun) (by rw [hpc]; rfl) (by simp)
      intro p hp
      rcases List.mem_cons.mp hp with rfl | hp
      · exact .inr ⟨rfl, by rw [hpc]; rfl⟩
      · exact .inl hp
  | maiRaises hpc hrun => exact h.giveUp (users_of_run_send hrun) hpc
  | motd hpc hrun =>
      exact h.goto (users_of_run_send hrun) (by rw [hpc]; rfl) (by simp) fun p hp => .inl hp
  | motdRaises hpc hrun =>
      exact h.goto (users_of_run_send hrun) (by rw [hpc]; rfl) (by simp) fun p hp => .inl hp
  | append hpc => exact h.append hpc
  | drops => exact ⟨h.nodup, h.fresh, h.single, h.backed, h.ungranted⟩

/-! ## One login -/

/-- A thread that has passed the check logs its client in by three more steps. -/
theorem exists_loggedIn {cond : Logins → LoginEvent → Prop} (hadv : ∀ s c, cond s (.advance c))
    {s : Logins} (h : Reaches Initial cond (Step peer) s) (conn : Conn) (name : Str)
    (hpc : s.pc conn = .sendMai name) (hopen : s.world.isOpen conn = true) :
    ∃ s', Reaches Initial cond (Step peer) s' ∧
      s'.world = s.world.loggedIn conn (peer conn) name ∧
      ∀ d, s'.pc d = if d = conn then .waiting else s.pc d := by
  have h₁ := h.step (hadv s conn) (.mai hpc (run_send_of_isOpen hopen _))
  have h₂ := h₁.step (hadv _ conn) (.motd (by rw [goto_pc, if_pos rfl])
    (run_send_of_isOpen (w := s.world.logged conn _) hopen _))
  have h₃ := h₂.step (hadv _ conn) (.append (by rw [goto_pc, if_pos rfl]))
  refine ⟨_, h₃, rfl, fun d => ?_⟩
  simp only [goto_pc]
  split_ifs <;> rfl

/-- **The steps are the branch.** A client whose name is free is logged in, step by step, with the
effect that `dispatch` has on its request. -/
theorem login_alone {cond : Logins → LoginEvent → Prop} (hadv : ∀ s c, cond s (.advance c))
    {s : Logins} (h : Reaches Initial cond (Step peer) s) (conn : Conn) (name : Str)
    (hcheck : cond s (.check conn name)) (hpc : s.pc conn = .waiting)
    (hopen : s.world.isOpen conn = true) (hfree : checkUserExists s.world.users name = false) :
    ∃ s', Reaches Initial cond (Step peer) s' ∧ s'.pc conn = .waiting ∧
      (dispatch conn (peer conn) (Request.iam name).render).run s.world =
        (.ok .again, s'.world) := by
  have h₁ := h.step hcheck (.free hpc hfree)
  obtain ⟨s', hs', hworld, hpc'⟩ :=
    exists_loggedIn peer hadv h₁ conn name (by rw [goto_pc, if_pos rfl]) hopen
  refine ⟨s', hs', by rw [hpc', if_pos rfl], ?_⟩
  rw [run_dispatch_iam_of_free conn (peer conn) hopen hfree, hworld]
  rfl

/-- **Unique names.** In a run in which nobody passes the check for a name that another thread has
been promised, the names in use are distinct, and a name in use was granted to one client. -/
theorem names_unique {s : Logins} (h : Reaches Initial Serialized (Step peer) s) :
    (s.world.users.map User.name).Nodup ∧
      ∀ name ∈ s.world.users.map User.name, ∀ c d, (c, name) ∈ s.granted → (d, name) ∈ s.granted →
        c = d := by
  have hu : s.Unique := by
    refine h.invariant ?_ fun s e s' hs hcond hstep => hs.step peer hcond hstep
    rintro s ⟨husers, hpc, hgranted⟩
    exact ⟨by simp [husers], by simp [husers], by simp [hpc, IamPc.promised], by simp [hgranted],
      by simp [hpc]⟩
  refine ⟨hu.nodup, fun name hname c d hc hd => ?_⟩
  have hentry : ∀ e, (e, name) ∈ s.granted → ∃ u ∈ s.world.users, u.conn = e ∧ u.name = name := by
    intro e he
    exact (hu.backed _ he).resolve_left fun hp => hu.fresh e name hp hname
  obtain ⟨u, hmem, rfl, hun⟩ := hentry c hc
  obtain ⟨v, hmem', rfl, hvn⟩ := hentry d hd
  rw [List.inj_on_of_nodup_map hu.nodup hmem hmem' (hun.trans hvn.symm)]

private def nobody : Logins := ⟨⟨[], fun _ => true, []⟩, fun _ => .waiting, []⟩

/-- Two clients pass the check before either is appended, and the second one is appended first. -/
theorem names_unique_two_logins :
    ∃ s : Logins, Reaches Initial Serialized (Step id) s ∧
      s.world.users.map User.name = [['b'], ['a']] ∧
      (s.world.users.map User.name).Nodup ∧
      ∀ name ∈ s.world.users.map User.name, ∀ c d, (c, name) ∈ s.granted → (d, name) ∈ s.granted →
        c = d := by
  have h₀ : Reaches Initial Serialized (Step id) nobody := .start ⟨rfl, fun _ => rfl, rfl⟩
  have hfirst : nobody.Serialized (.check 0 ['a']) := fun _ _ _ => by simp [nobody, IamPc.promised]
  have h₁ : Reaches Initial Serialized (Step id) (nobody.goto 0 (.sendMai ['a'])) :=
    h₀.step hfirst (.free rfl rfl)
  have hsecond : (nobody.goto 0 (.sendMai ['a'])).Serialized (.check 1 ['b']) := by
    intro _ other _
    rw [goto_pc]
    split_ifs
    · exact fun h => absurd (Option.some.inj h) (by decide)
    · exact nofun
  have h₂ : Reaches Initial Serialized (Step id)
      ((nobody.goto 0 (.sendMai ['a'])).goto 1 (.sendMai ['b'])) := h₁.step hsecond (.free rfl rfl)
  obtain ⟨s₃, h₃, hw₃, hpc₃⟩ := exists_loggedIn id (fun _ _ => trivial) h₂ 1 ['b'] rfl rfl
  obtain ⟨s₄, h₄, hw₄, -⟩ :=
    exists_loggedIn id (fun _ _ => trivial) h₃ 0 ['a'] (by rw [hpc₃]; rfl) (by rw [hw₃]; rfl)
  exact ⟨s₄, h₄, by rw [hw₄, hw₃]; rfl, names_unique id h₄⟩

/-- Two threads that check the same name before either appends it both register it. -/
theorem not_names_unique :
    ¬∀ s : Logins, Reachable Initial (Step id) s → (s.world.users.map User.name).Nodup := by
  intro hall
  have h₀ : Reachable Initial (Step id) nobody := .start ⟨rfl, fun _ => rfl, rfl⟩
  have h₁ : Reachable Initial (Step id) (nobody.goto 0 (.sendMai ['a'])) := h₀.next (.free rfl rfl)
  have h₂ : Reachable Initial (Step id)
      ((nobody.goto 0 (.sendMai ['a'])).goto 1 (.sendMai ['a'])) :=
    h₁.next (.free rfl rfl)
  obtain ⟨s₃, h₃, hw₃, hpc₃⟩ :=
    exists_loggedIn id (fun _ _ => trivial) h₂ 0 ['a'] rfl rfl
  obtain ⟨s₄, h₄, hw₄, -⟩ :=
    exists_loggedIn id (fun _ _ => trivial) h₃ 1 ['a'] (by rw [hpc₃]; rfl) (by rw [hw₃]; rfl)
  have hnodup := hall s₄ h₄
  rw [hw₄, hw₃] at hnodup
  exact absurd hnodup (by decide)

end Logins

end ME2U.Server
