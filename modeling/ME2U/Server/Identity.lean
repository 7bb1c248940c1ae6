import ME2U.Server.Listener

/-!
# Who a connection is

The server knows the sender of a request by the address of its peer: the name is that of the first
entry with the address. Entries outlive their connections, and nothing keeps a connection from
registering twice.

* `authentic`: where no connection is accepted from an address that is still in the registry, the
  names in `FROM` and `OT` frames are the sender's own.
* `oneIdentity`: where nobody registers twice, a connection has one entry at most, and none after
  its `BYE`.
-/

namespace ME2U.Server

/-! ## The names in frames -/

/-- A `FROM` or `OT` frame with that name. -/
def NamesSender (name : Str) (frame : Bytes) : Prop :=
  (∃ msg, frame = encode (ending (Verb.fromUser ++ ' ' :: (name ++ ' ' :: msg)))) ∨
    frame = encode (ending (Verb.ot ++ ' ' :: name))

/-- Every `FROM` or `OT` frame sent on a request carries the name found by the address, which the
connection registered itself before; on a request of a connection without a name there is none. -/
def Authentic (history : List Exchange) : Prop :=
  ∀ pre e, pre ++ [e] <+: history →
    (∀ x ∈ e.sent, (∃ n, NamesSender n x.frame) → ∃ name ∈ registeredBy e.conn pre,
      getNameFromAddr e.before.users e.addr = some name ∧ NamesSender name x.frame) ∧
    (registeredBy e.conn pre = [] → ∀ x ∈ e.sent, ¬∃ n, NamesSender n x.frame)

/-- A frame has one text. -/
theorem encode_ending_inj {a b : Str} : encode (ending a) = encode (ending b) ↔ a = b := by
  rw [encode_inj]
  exact List.append_left_inj _

/-- The frames sent on a request. -/
theorem Exchange.exists_sends {e : Exchange} {x : Sent} (hx : x ∈ e.sent) :
    ∃ body, x.frame = encode (ending body) ∧
      Sends e.before.users e.conn e.addr e.newStr x.conn body := by
  obtain ⟨new, hsent, hnew⟩ := sent_run_dispatch e.conn e.addr e.newStr e.before
  have hdrop : e.sent = new := by
    unfold Exchange.sent Exchange.after
    rw [hsent, List.drop_left]
  exact hnew x (hdrop ▸ hx)

/-- What names a sender was sent with the name found by the address. -/
theorem Sends.namesSender {users : List User} {conn c : Conn} {addr : Addr} {newStr body : Str}
    (h : Sends users conn addr newStr c body) (hname : ∃ n, NamesSender n (encode (ending body))) :
    ∃ s, getNameFromAddr users addr = some s ∧ NamesSender s (encode (ending body)) := by
  have hverb : (∃ t, body = Verb.fromUser ++ t) ∨ ∃ t, body = Verb.ot ++ t := by
    obtain ⟨n, ⟨msg, h⟩ | h⟩ := hname
    · exact .inl ⟨_, encode_ending_inj.mp h⟩
    · exact .inr ⟨_, encode_ending_inj.mp h⟩
  cases h with
  | fromUser _ _ _ _ hs => exact ⟨_, hs, .inl ⟨_, rfl⟩⟩
  | ot _ _ _ hs => exact ⟨_, hs, .inr rfl⟩
  | u2em _ | mai _ | motd _ | utsil _ | edne _ _ _ _ | eyb _ _ | uoff _ _ _ =>
      -- these begin with other letters
      simp [Verb.u2em, Verb.mai, Verb.motd, Verb.utsil, Verb.edne, Verb.eyb,
        Verb.uoff, Verb.fromUser, Verb.ot] at hverb

/-- Nothing was sent before the first request. -/
theorem authentic_nil : Authentic [] := by
  intro pre e hpre
  simp at hpre

/-- One more request whose frames carry names of its own connection. -/
theorem Authentic.append {history : List Exchange} (h : Authentic history) {e : Exchange}
    (hall : ∀ x ∈ e.sent, (∃ n, NamesSender n x.frame) → ∃ name ∈ registeredBy e.conn history,
      getNameFromAddr e.before.users e.addr = some name ∧ NamesSender name x.frame) :
    Authentic (history ++ [e]) := by
  intro pre e' hpre
  rcases List.prefix_concat_iff.mp hpre with heq | hpre
  · obtain ⟨rfl, he⟩ := List.append_inj' heq rfl
    obtain rfl := List.singleton_inj.mp he
    refine ⟨hall, fun hnil x hx hnames => ?_⟩
    obtain ⟨name, hname, -⟩ := hall x hx hnames
    rw [hnil] at hname
    cases hname
  · exact h pre e' hpre

namespace Listener

/-! ## Addresses -/

/-- No connection is accepted from an address that is in the registry. -/
def UnusedAddress (s : Listener) : ListenerEvent → Prop
  | .accepts _ addr => ∀ u ∈ s.world.users, u.addr ≠ addr
  | _ => True

/-- An address in the registry is, of the open connections, only that of the entry's. -/
def Owned (s : Listener) : Prop :=
  ∀ u ∈ s.world.users, ∀ c, (c, u.addr) ∈ s.accepted → s.world.isOpen c = true → c = u.conn

/-- In every run without a reused address the owner is known. -/
theorem owned {s : Listener} (h : Reaches Initial UnusedAddress Step s) : s.Coherent ∧ s.Owned := by
  refine invariant (I := fun s => s.Coherent ∧ s.Owned) ?_ ?_ ?_ ?_ ?_ h
  · intro s hs
    refine ⟨coherent (.start hs : Reachable Initial Step s), ?_⟩
    rintro u hu
    rw [hs.1.1] at hu
    cases hu
  · rintro s conn addr ⟨hs, hown⟩ hcond hnew haddr
    refine ⟨hs.accept hnew haddr, fun u hu c hc hopen => ?_⟩
    rcases List.mem_append.mp hc with hc | hc
    · rw [accept_isOpen_of_ne (hnew _ hc)] at hopen
      exact hown u hu c hc hopen
    · have heq : u.addr = addr := congrArg Prod.snd (List.mem_singleton.mp hc)
      exact absurd heq (hcond u hu)
  · rintro s conn addr data stop ⟨hs, hown⟩ - - - -
    exact ⟨hs.finish conn stop, hown⟩
  · rintro s conn addr data newStr ⟨hs, hown⟩ - hmem - hopen - -
    refine ⟨hs.serve hmem newStr, fun u hu c hc hco => ?_⟩
    rw [serve_users] at hu
    have hco' : s.world.isOpen c = true := isOpen_of_run_dispatch hco
    rcases mem_usersAfter hu with hu | ⟨-, rfl, -⟩
    · exact hown u hu c hc hco'
    · -- the new entry is of the only open connection with its address
      exact congrArg Prod.fst (hs.open_unique _ hc _ hmem rfl hco' hopen)
  · rintro s conn ⟨hs, hown⟩ -
    exact ⟨hs.sever conn, fun u hu c hc hco => hown u hu c hc (isOpen_of_sever hco)⟩

/-- The name found by the address of an open connection is one that it registered. -/
theorem Owned.namesSender {s : Listener} (h : s.Owned) (hs : s.Coherent) {conn : Conn} {addr : Addr}
    (hmem : (conn, addr) ∈ s.accepted) (hopen : s.world.isOpen conn = true)
    {newStr : Str} {x : Sent}
    (hx : x ∈ Exchange.sent ⟨conn, addr, newStr, s.world⟩) (hnames : ∃ n, NamesSender n x.frame) :
    ∃ name ∈ registeredBy conn s.history,
      getNameFromAddr s.world.users addr = some name ∧ NamesSender name x.frame := by
  obtain ⟨body, hframe, hsends⟩ := Exchange.exists_sends hx
  rw [hframe] at hnames ⊢
  obtain ⟨name, hname, hnamed⟩ := hsends.namesSender hnames
  obtain ⟨u, hu, rfl, rfl⟩ := mem_of_getNameFromAddr hname
  have hconn : conn = u.conn := h u hu conn hmem hopen
  exact ⟨u.name, hconn ▸ hs.own u hu, hname, hnamed⟩

/-- **Authentic senders.** In a run in which no connection is accepted from an address that is still
in the registry, the name in every `FROM` and `OT` frame is one that the connection of the request
registered itself. -/
theorem authentic {s : Listener} (h : Reaches Initial UnusedAddress Step s) :
    Authentic s.history := by
  induction h with
  | start hs =>
      rw [hs.2.2.2]
      exact authentic_nil
  | @step s s' e hrun hcond hstep ih =>
      obtain ⟨hcoherent, hown⟩ := owned hrun
      cases hstep with
      | accepts | breaks => exact ih
      | @receives conn addr data hmem hstop =>
          rcases s.turn_cases conn addr data with ⟨-, stop, -, hturn⟩ | ⟨newStr, hreq, -, hturn⟩
          · rw [hturn]
            exact ih
          · rw [hturn]
            have hopen : s.world.isOpen conn = true := by
              by_contra hclosed
              exact hreq (.inl (by simpa using hclosed))
            exact Authentic.append ih fun x hx hnames =>
              hown.namesSender hcoherent hmem hopen hx hnames

/-- A message between two clients carries the name of the one that sent it. -/
theorem authentic_two_clients :
    Authentic (twoClients.serve 0 0 (Request.toUser ['b'] ['h']).render).history :=
  authentic (serve_request (reaches_twoClients (by simp [UnusedAddress, idle]) trivial
    (by simp only [UnusedAddress]; decide) trivial) 0 0 (.toUser ['b'] ['h'])
    (show '\r' ∉ ['b'] ∧ '\r' ∉ ['h'] by decide) trivial (by decide) rfl rfl)

/-- A connection from the address of a client that is gone sends messages in its name. -/
theorem not_authentic :
    ¬∀ s : Listener, Reachable Initial Step s → Authentic s.history := by
  intro hall
  have htwo : Reachable Initial Step twoClients :=
    reaches_twoClients trivial trivial trivial trivial
  have hrun : Reachable Initial Step ((twoClients.sever 0).accept 2 0) :=
    (htwo.next .breaks).next (.accepts (by decide) (by decide))
  have hto := serve_request hrun 2 0 (.toUser ['b'] ['h']) (show '\r' ∉ ['b'] ∧
    '\r' ∉ ['h'] by decide)
    trivial (by decide) rfl rfl
  have hnone := (hall _ hto ((twoClients.sever 0).accept 2 0).history _ (List.prefix_refl _)).2 rfl
  apply hnone ⟨1, encode (ending ['F', 'R', 'O', 'M', ' ', 'a', ' ', 'h']), true⟩ (by decide)
  exact ⟨['a'], .inl ⟨['h'], rfl⟩⟩

/-! ## Entries of a connection -/

/-- A connection has one entry at most, and none once its `BYE` was handled. -/
def OneIdentity (s : Listener) : Prop :=
  (s.world.users.map User.conn).Nodup ∧
    ∀ e ∈ s.history, e.newStr = Verb.bye → ∀ u ∈ s.world.users, u.conn ≠ e.conn

/-- Connections are accepted from distinct addresses. -/
def DistinctAddress (s : Listener) : ListenerEvent → Prop
  | .accepts _ addr => ∀ p ∈ s.accepted, p.2 ≠ addr
  | _ => True

/-- No connection that is in the registry registers a free name. -/
def RegistersOnce (s : Listener) : ListenerEvent → Prop
  | .receives conn data => ∀ newStr, requestString data = some newStr → newStr.take 3 = Verb.iam →
      checkUserExists s.world.users (newStr.drop 4) = false → ∀ u ∈ s.world.users, u.conn ≠ conn
  | _ => True

/-- What keeps a connection from a second identity: addresses are distinct, it has one entry, and
after a `BYE` it has none and its handler gets no more requests. -/
structure Single (s : Listener) : Prop where
  coherent : s.Coherent
  addrs : (s.accepted.map Prod.snd).Nodup
  conns : (s.world.users.map User.conn).Nodup
  left : ∀ e ∈ s.history, e.newStr = Verb.bye → (∀ u ∈ s.world.users, u.conn ≠ e.conn) ∧
    (s.world.isOpen e.conn = false ∨ s.stop e.conn ≠ .waiting)

/-- The entry of an address is that of its connection. -/
theorem Single.conn_eq {s : Listener} (h : s.Single) {conn : Conn} {addr : Addr}
    (hmem : (conn, addr) ∈ s.accepted) {u : User} (hu : u ∈ s.world.users) :
    u.addr = addr ↔ u.conn = conn := by
  have hentry := h.coherent.entries u hu
  constructor
  · intro heq
    exact congrArg Prod.fst (List.inj_on_of_nodup_map h.addrs hentry hmem heq)
  · intro heq
    exact congrArg Prod.snd (List.inj_on_of_nodup_map h.coherent.conns hentry hmem heq)

/-- A `BYE` on an open connection leaves no entry of it, and no more requests are handled on it. -/
theorem Single.serve_bye {s : Listener} (h : s.Single) {conn : Conn} {addr : Addr}
    (hmem : (conn, addr) ∈ s.accepted) (hopen : s.world.isOpen conn = true) :
    (∀ u ∈ (s.serve conn addr Verb.bye).world.users, u.conn ≠ conn) ∧
      ((s.serve conn addr Verb.bye).world.isOpen conn = false ∨
        (s.serve conn addr Verb.bye).stop conn ≠ .waiting) := by
  have hiam : Verb.bye.take 3 ≠ Verb.iam := by decide
  rw [serve_users, World.usersAfter, if_neg hiam, if_pos rfl]
  cases hfind : s.world.users.find? fun i => i.addr == addr with
  | none =>
      -- without an entry the removal raises
      refine ⟨fun u hu heq => ?_, .inr ?_⟩
      · have hno := List.find?_eq_none.mp hfind u hu
        exact hno (by simpa using (h.conn_eq hmem hu).mpr heq)
      · rw [ne_eq, serve_stop_eq_waiting_iff hopen, ← Request.render, answerable_render_iff]
        rintro ⟨i, hi, -⟩
        rw [hfind] at hi
        cases hi
  | some toRem =>
      have hrem : toRem ∈ s.world.users := List.mem_of_find?_eq_some hfind
      obtain rfl : toRem.conn = conn :=
        (h.conn_eq hmem hrem).mp (by simpa using List.find?_some hfind)
      simp only [if_pos hopen]
      refine ⟨fun u hu heq => ?_, .inl ?_⟩
      · have hnd : s.world.users.Nodup := h.conns.of_map _
        obtain ⟨hne, hu⟩ := hnd.mem_erase_iff.mp hu
        exact hne (List.inj_on_of_nodup_map h.conns hu hrem heq)
      · show ((dispatch toRem.conn addr Verb.bye).run s.world).2.isOpen toRem.conn = false
        rw [run_dispatch_bye_snd, run_removeUsrByAddr, hfind]
        simp only [if_pos hopen]
        exact keeps_broadcastUoff_of (I := fun w => w.isOpen toRem.conn = false)
          (fun _ _ _ h => h) (s.world.withdrawn toRem) (by simp [World.withdrawn])

/-- A request keeps the entries single if it does not register twice, -/
theorem Single.serve {s : Listener} (h : s.Single) {conn : Conn} {addr : Addr} {newStr : Str}
    (hmem : (conn, addr) ∈ s.accepted) (hstop : s.stop conn = .waiting)
    (hopen : s.world.isOpen conn = true)
    (honce : newStr.take 3 = Verb.iam → checkUserExists s.world.users (newStr.drop 4) = false →
      ∀ u ∈ s.world.users, u.conn ≠ conn) : (s.serve conn addr newStr).Single := by
  refine ⟨h.coherent.serve hmem newStr, h.addrs, ?_, ?_⟩
  · rw [serve_users]
    exact nodup_map_usersAfter h.conns honce
  · intro e he hbye
    rcases List.mem_append.mp he with he | he
    · -- no request comes in on a connection that has left
      obtain ⟨hnone, hgone⟩ := h.left e he hbye
      have hne : e.conn ≠ conn := by
        rintro rfl
        rcases hgone with hclosed | hended
        · rw [hopen] at hclosed
          cases hclosed
        · exact hended hstop
      refine ⟨fun u hu => ?_, hgone.imp (fun hclosed => ?_) fun hended => ?_⟩
      · rw [serve_users] at hu
        rcases mem_usersAfter hu with hu | ⟨-, rfl, -⟩
        · exact hnone u hu
        · exact hne.symm
      · by_contra hreopened
        have hwas := isOpen_of_run_dispatch (Bool.not_eq_false _ ▸ hreopened)
        rw [hclosed] at hwas
        cases hwas
      · rwa [serve_stop_of_ne hne]
    · obtain rfl := List.mem_singleton.mp he
      obtain rfl : newStr = Verb.bye := hbye
      exact h.serve_bye hmem hopen

/-- and so does a new connection, -/
theorem Single.accept {s : Listener} (h : s.Single) {conn : Conn} {addr : Addr}
    (haddr : s.DistinctAddress (.accepts conn addr)) (hnew : ∀ p ∈ s.accepted, p.1 ≠ conn)
    (hclosed : ∀ p ∈ s.accepted, p.2 = addr → s.world.isOpen p.1 = false) :
    (s.accept conn addr).Single := by
  refine ⟨h.coherent.accept hnew hclosed, ?_, h.conns, fun e he hbye => ?_⟩
  · unfold Listener.accept
    rw [List.map_append]
    apply h.addrs.append (List.nodup_singleton _)
    intro a ha ha'
    obtain ⟨p, hp, rfl⟩ := List.mem_map.mp ha
    exact haddr p hp (by simpa using ha')
  · refine ⟨(h.left e he hbye).1, (h.left e he hbye).2.imp_left fun hclosed => ?_⟩
    rwa [accept_isOpen_of_ne (hnew _ (h.coherent.handled e he).1)]

/-- the end of a handler -/
theorem Single.finish {s : Listener} (h : s.Single) (conn : Conn) {stop : Stop}
    (hne : stop ≠ .waiting) :
    (s.finish conn stop).Single := by
  refine ⟨h.coherent.finish conn stop, h.addrs, h.conns, fun e he hbye => ?_⟩
  refine ⟨(h.left e he hbye).1, (h.left e he hbye).2.imp_right fun hended => ?_⟩
  show Function.update s.stop conn stop e.conn ≠ _
  rw [Function.update_apply]
  split_ifs
  · exact hne
  · exact hended

/-- and a connection that breaks. -/
theorem Single.sever {s : Listener} (h : s.Single) (conn : Conn) : (s.sever conn).Single := by
  refine ⟨h.coherent.sever conn, h.addrs, h.conns, fun e he hbye => ?_⟩
  refine ⟨(h.left e he hbye).1, (h.left e he hbye).2.imp_left fun hclosed => ?_⟩
  show Function.update s.world.isOpen conn false e.conn = false
  rw [Function.update_apply]
  split_ifs
  · rfl
  · exact hclosed

/-- So every connection has one entry at most. -/
theorem single_of_reaches {s : Listener}
    (h : Reaches Initial (fun s e => s.DistinctAddress e ∧ s.RegistersOnce e) Step s) :
    s.Single := by
  refine invariant ?_ ?_ ?_ ?_ ?_ h
  · intro s hs
    refine ⟨coherent (.start hs : Reachable Initial Step s), ?_, ?_, ?_⟩
    · simp [hs.2.1]
    · simp [hs.1.1]
    · simp [hs.2.2.2]
  · rintro s conn addr hs ⟨haddr, -⟩ hnew hclosed
    exact hs.accept haddr hnew hclosed
  · rintro s conn addr data stop hs - - - hne
    exact hs.finish conn hne
  · rintro s conn addr data newStr hs ⟨-, honce⟩ hmem hstop hopen hstr -
    exact hs.serve hmem hstop hopen (honce newStr hstr)
  · rintro s conn hs -
    exact hs.sever conn

/-- **One identity.** In a run in which connections have distinct addresses and none registers a
free name while it is in the registry, every connection has one entry at most, and none once its
`BYE` was handled. -/
theorem oneIdentity {s : Listener}
    (h : Reaches Initial (fun s e => s.DistinctAddress e ∧ s.RegistersOnce e) Step s) :
    s.OneIdentity := by
  have hsingle : s.Single := single_of_reaches h
  exact ⟨hsingle.conns, fun e he hbye => (hsingle.left e he hbye).1⟩

/-- A client that registers and leaves has no entry. -/
theorem oneIdentity_bye :
    (twoClients.serve 0 0 Request.bye.render).history.length = 3 ∧
      (twoClients.serve 0 0 Request.bye.render).OneIdentity := by
  have hfirst : idle.DistinctAddress (.accepts 0 0) := fun p hp => by cases hp
  have hsecond : oneClient.DistinctAddress (.accepts 1 1) := by
    simp only [DistinctAddress]
    decide
  have ha : (idle.accept 0 0).RegistersOnce (.receives 0 (wire (Request.iam ['a']).render)) :=
    fun _ _ _ _ u hu => by cases hu
  have hb : (oneClient.accept 1 1).RegistersOnce
      (.receives 1 (wire (Request.iam ['b']).render)) := by
    intro _ _ _ _ u hu
    rw [List.mem_singleton.mp hu]
    decide
  have hbye : twoClients.RegistersOnce (.receives 0 (wire Request.bye.render)) := by
    intro newStr hstr hiam
    rw [requestString_wire (show Request.bye.CRFree from trivial)] at hstr
    cases hstr
    exact absurd hiam (by decide)
  exact ⟨rfl, oneIdentity (serve_request (reaches_twoClients ⟨hfirst, trivial⟩ ⟨trivial, ha⟩
    ⟨hsecond, trivial⟩ ⟨trivial, hb⟩) 0 0 .bye trivial ⟨trivial, hbye⟩ (by decide) rfl rfl)⟩

/-- A client that registers two names has two entries, and one of them is left after its `BYE`. -/
theorem not_oneIdentity :
    ¬∀ s : Listener, Reaches Initial DistinctAddress Step s → s.OneIdentity := by
  intro hall
  have htwo : Reaches Initial DistinctAddress Step twoClients :=
    reaches_twoClients (by simp [DistinctAddress, idle])
      trivial (by simp only [DistinctAddress]; decide)
      trivial
  have hagain :=
    serve_request htwo 0 0 (.iam ['c']) (show '\r' ∉ ['c'] by decide) trivial (by decide) rfl rfl
  exact absurd (hall _ hagain).1 (by decide)

end Listener

end ME2U.Server
