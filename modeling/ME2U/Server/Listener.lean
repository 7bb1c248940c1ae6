import ME2U.Server.Registry

/-!
# The server and its connections

`listen` accepts connections and starts a handler for each. A `Listener` is the server with the
connections it accepted, where the handler of each stands, and the requests handled so far. A
connection can be accepted from the address of an earlier one once that cannot be sent to any more.

Requests are handled one at a time: one step is one turn of the loop of one handler.

* `Listener.turn_cases`: a turn ends the handler without doing anything, or handles a request.
* `Listener.invariant`: what holds at the start and is kept by accepting, handling, ending and
  breaking holds in every state of a run.
* `Listener.Coherent`: what every run keeps without a condition.
-/

namespace ME2U.Server

/-! ## The steps -/

/-- A request string that was handled, and the world it was handled in. -/
structure Exchange where
  /-- The connection it came in on. -/
  conn : Conn
  /-- The address of the connection. -/
  addr : Addr
  newStr : Str
  before : World

/-- The world after the request. -/
def Exchange.after (e : Exchange) : World := ((dispatch e.conn e.addr e.newStr).run e.before).2

/-- What was passed to `send` on the request. -/
def Exchange.sent (e : Exchange) : List Sent := e.after.sent.drop e.before.sent.length

/-- The name that the request registers, if it does. -/
def Exchange.registers (e : Exchange) : Option Str :=
  if e.newStr.take 3 = Verb.iam ∧ checkUserExists e.before.users (e.newStr.drop 4) = false then
    some (e.newStr.drop 4)
  else none

/-- The names that a connection registered by requests of its own. -/
def registeredBy (conn : Conn) (history : List Exchange) : List Str :=
  (history.filter fun e => e.conn == conn).filterMap Exchange.registers

/-- The server with its connections.
Source: `server.py` `listen` (lines 22–37) -/
structure Listener where
  world : World
  /-- The connections accepted, each with the address of its peer. -/
  accepted : List (Conn × Addr)
  /-- Where the handler of a connection stands. -/
  stop : Conn → Stop
  /-- The requests handled, oldest first. -/
  history : List Exchange

/-- What happens to the server. -/
inductive ListenerEvent
  /-- A connection is accepted, and its handler started. -/
  | accepts (conn : Conn) (addr : Addr)
  /-- The handler of a connection gets something from `recv`, the empty string at the end. -/
  | receives (conn : Conn) (data : Bytes)
  /-- A connection can no longer be sent to or received from. -/
  | breaks (conn : Conn)

/-- Where a handler stands after a request. -/
def stopAfter : Except PyExc LoopCtl → Stop
  | .ok .again => .waiting
  | .ok .leave => .left
  | .error e => .raised e

namespace Listener

/-- The server when it starts listening. -/
def Initial (s : Listener) : Prop :=
  s.world.Initial ∧ s.accepted = [] ∧ (∀ c, s.stop c = .waiting) ∧ s.history = []

/-- Source: `server.py` `listen` (lines 30–33) -/
def accept (s : Listener) (conn : Conn) (addr : Addr) : Listener :=
  { s with
    world := { s.world with isOpen := Function.update s.world.isOpen conn true }
    accepted := s.accepted ++ [(conn, addr)] }

/-- One turn of the loop of a handler. -/
def turn (s : Listener) (conn : Conn) (addr : Addr) (data : Bytes) : Listener :=
  let r := handleUser conn addr s.world [⟨id, data⟩]
  { s with
    world := r.world
    stop := Function.update s.stop conn r.stop
    history := s.history ++ r.dispatched.map fun newStr => ⟨conn, addr, newStr, s.world⟩ }

/-- A connection breaks. -/
def sever (s : Listener) (conn : Conn) : Listener :=
  { s with world := { s.world with isOpen := Function.update s.world.isOpen conn false } }

/-- The steps. -/
inductive Step : Listener → ListenerEvent → Listener → Prop
  | accepts {s conn addr} : (∀ p ∈ s.accepted, p.1 ≠ conn) →
      (∀ p ∈ s.accepted, p.2 = addr → s.world.isOpen p.1 = false) →
      Step s (.accepts conn addr) (s.accept conn addr)
  | receives {s conn addr data} : (conn, addr) ∈ s.accepted → s.stop conn = .waiting →
      Step s (.receives conn data) (s.turn conn addr data)
  | breaks {s conn} : Step s (.breaks conn) (s.sever conn)

/-! ## One turn -/

/-- A handler has ended, and nothing else has changed. -/
def finish (s : Listener) (conn : Conn) (stop : Stop) : Listener :=
  { s with stop := Function.update s.stop conn stop }

/-- A request string has been handled. -/
def serve (s : Listener) (conn : Conn) (addr : Addr) (newStr : Str) : Listener :=
  { s with
    world := ((dispatch conn addr newStr).run s.world).2
    stop := Function.update s.stop conn (stopAfter ((dispatch conn addr newStr).run s.world).1)
    history := s.history ++ [⟨conn, addr, newStr, s.world⟩] }

/-- The handler gets no request: the connection is closed, the stream has ended, or the bytes are
not UTF-8. -/
def NoRequest (s : Listener) (conn : Conn) (data : Bytes) : Prop :=
  s.world.isOpen conn = false ∨ data = [] ∨ requestString data = none

/-- **One turn** ends the handler, where there is no request, or handles one. -/
theorem turn_cases (s : Listener) (conn : Conn) (addr : Addr) (data : Bytes) :
    (s.NoRequest conn data ∧ ∃ stop ≠ .waiting, s.turn conn addr data = s.finish conn stop) ∨
      ∃ newStr, ¬s.NoRequest conn data ∧ requestString data = some newStr ∧
        s.turn conn addr data = s.serve conn addr newStr := by
  by_cases hopen : s.world.isOpen conn = false
  · refine .inl ⟨.inl hopen, .raised .osError, by simp, ?_⟩
    simp [turn, handleUser, hopen, finish]
  by_cases hdata : data = []
  · refine .inl ⟨.inr (.inl hdata), .left, by simp, ?_⟩
    simp [turn, handleUser, hopen, hdata, finish]
  cases hreq : requestString data with
  | none =>
      refine .inl ⟨.inr (.inr hreq), .raised .unicodeDecodeError, by simp, ?_⟩
      simp [turn, handleUser, hopen, hdata, handleData, hreq, finish]
  | some newStr =>
      refine .inr ⟨newStr, by simp [NoRequest, hopen, hdata, hreq], rfl, ?_⟩
      simp only [turn, handleUser, id_eq, if_neg hopen, if_neg hdata, handleData, hreq, serve]
      rcases (dispatch conn addr newStr).run s.world with ⟨e | ctl, w'⟩
      · rfl
      · cases ctl <;> rfl

/-- The bytes of a request of the protocol, on an open connection, are handled as the request. -/
theorem turn_wire {s : Listener} {conn : Conn} {q : Request} (hopen : s.world.isOpen conn = true)
    (hq : q.CRFree) (addr : Addr) :
    s.turn conn addr (wire q.render) = s.serve conn addr q.render := by
  have hstr := requestString_wire hq
  have hdata : wire q.render ≠ [] := by
    rw [wire_eq]
    exact List.append_ne_nil_of_right_ne_nil _ (by decide)
  rcases s.turn_cases conn addr (wire q.render) with ⟨hno | hno | hno, -⟩ | ⟨newStr, -, hreq, hturn⟩
  · rw [hopen] at hno
    cases hno
  · exact absurd hno hdata
  · rw [hstr] at hno
    cases hno
  · rw [hstr] at hreq
    rw [hturn, Option.some.inj hreq]

/-- A request changes the registry as it does on its own, -/
theorem serve_users (s : Listener) (conn : Conn) (addr : Addr) (newStr : Str) :
    (s.serve conn addr newStr).world.users = s.world.usersAfter conn addr newStr :=
  users_run_dispatch conn addr newStr s.world

/-- and the stop of no other handler. -/
theorem serve_stop_of_ne {s : Listener} {conn c : Conn} (h : c ≠ conn)
    (addr : Addr) (newStr : Str) :
    (s.serve conn addr newStr).stop c = s.stop c :=
  Function.update_of_ne h _ _

/-- The end of a handler leaves the others as they were. -/
theorem finish_stop_of_ne {s : Listener} {conn c : Conn} (h : c ≠ conn) (stop : Stop) :
    (s.finish conn stop).stop c = s.stop c :=
  Function.update_of_ne h _ _

theorem accept_isOpen_of_ne {s : Listener} {conn c : Conn} (h : c ≠ conn) (addr : Addr) :
    (s.accept conn addr).world.isOpen c = s.world.isOpen c :=
  Function.update_of_ne h _ _

/-- Breaking a connection opens none. -/
theorem isOpen_of_sever {s : Listener} {conn c : Conn} (h : (s.sever conn).world.isOpen c = true) :
    s.world.isOpen c = true := by
  by_cases heq : c = conn
  · simp [sever, heq] at h
  · simpa [sever, Function.update_of_ne heq] using h

/-- A handler is in its loop again after a request exactly when that is answerable. -/
theorem serve_stop_eq_waiting_iff {s : Listener} {conn : Conn} {addr : Addr} {newStr : Str}
    (hopen : s.world.isOpen conn = true) :
    (s.serve conn addr newStr).stop conn = .waiting ↔ Answerable addr s.world newStr := by
  have hstop : (s.serve conn addr newStr).stop conn =
      stopAfter ((dispatch conn addr newStr).run s.world).1 := Function.update_self ..
  rw [hstop, ← run_dispatch_again_iff_answerable conn addr hopen]
  rcases (dispatch conn addr newStr).run s.world with ⟨e | ctl, w'⟩
  · simp [stopAfter]
  · cases ctl <;> simp [stopAfter]

/-! ## Runs -/

section Runs

variable {cond : Listener → ListenerEvent → Prop} {I : Listener → Prop}

/-- **Invariants of the server.** What holds at the start and is kept when a connection is accepted
or breaks, when a handler ends and when a request is handled holds in every state of a run. -/
theorem invariant (hinit : ∀ s, s.Initial → I s)
    (haccept : ∀ s conn addr, I s → cond s (.accepts conn addr) → (∀ p ∈ s.accepted, p.1 ≠ conn) →
      (∀ p ∈ s.accepted, p.2 = addr → s.world.isOpen p.1 = false) → I (s.accept conn addr))
    (hfinish : ∀ s conn addr data stop, I s → cond s (.receives conn data) →
      (conn, addr) ∈ s.accepted → s.NoRequest conn data → stop ≠ .waiting → I (s.finish conn stop))
    (hserve : ∀ s conn addr data newStr, I s → cond s (.receives conn data) →
      (conn, addr) ∈ s.accepted → s.stop conn = .waiting → s.world.isOpen conn = true →
      requestString data = some newStr → data ≠ [] → I (s.serve conn addr newStr))
    (hsever : ∀ s conn, I s → cond s (.breaks conn) → I (s.sever conn)) {s : Listener}
    (h : Reaches Initial cond Step s) : I s := by
  refine h.invariant hinit fun s e s' hs hcond hstep => ?_
  cases hstep with
  | accepts hnew haddr => exact haccept s _ _ hs hcond hnew haddr
  | @receives conn addr data hmem hstop =>
      rcases s.turn_cases conn addr data with ⟨hno, stop, hne, hturn⟩ | ⟨newStr, hreq, hstr, hturn⟩
      · rw [hturn]
        exact hfinish s conn addr data stop hs hcond hmem hno hne
      · rw [hturn]
        have hopen : s.world.isOpen conn = true := by
          by_contra hclosed
          exact hreq (.inl (by simpa using hclosed))
        exact hserve s conn addr data newStr hs hcond hmem hstop hopen hstr fun hdata =>
          hreq (.inr (.inl hdata))
  | breaks => exact hsever s _ hs hcond

/-- A run goes on with a request of the protocol. -/
theorem serve_request {s : Listener} (h : Reaches Initial cond Step s) (conn : Conn) (addr : Addr)
    (q : Request) (hq : q.CRFree) (hcond : cond s (.receives conn (wire q.render)))
    (hmem : (conn, addr) ∈ s.accepted) (hstop : s.stop conn = .waiting)
    (hopen : s.world.isOpen conn = true) :
    Reaches Initial cond Step (s.serve conn addr q.render) := by
  rw [← turn_wire hopen hq]
  exact .step h hcond (.receives hmem hstop)

end Runs

/-- The server before anybody connects. -/
def idle : Listener := ⟨⟨[], fun _ => false, []⟩, [], fun _ => .waiting, []⟩

theorem initial_idle : idle.Initial := ⟨⟨rfl, rfl⟩, rfl, fun _ => rfl, rfl⟩

/-! ## What every run keeps -/

/-- Connections are accepted once, entries are of connections accepted, names are distinct and each
was registered by the connection of the entry, and of the connections with one address one at most
can be sent to. -/
structure Coherent (s : Listener) : Prop where
  /-- A connection is accepted once. -/
  conns : (s.accepted.map Prod.fst).Nodup
  /-- An entry has an accepted connection and its address. -/
  entries : ∀ u ∈ s.world.users, (u.conn, u.addr) ∈ s.accepted
  /-- Names are distinct. -/
  names : (s.world.users.map User.name).Nodup
  /-- A name in the registry was registered by its connection. -/
  own : ∀ u ∈ s.world.users, u.name ∈ registeredBy u.conn s.history
  /-- Of the connections with one address one at most is open. -/
  open_unique : ∀ p ∈ s.accepted, ∀ q ∈ s.accepted, p.2 = q.2 → s.world.isOpen p.1 = true →
    s.world.isOpen q.1 = true → p = q
  /-- The requests handled came in on accepted connections, when names were distinct. -/
  handled : ∀ e ∈ s.history, (e.conn, e.addr) ∈ s.accepted ∧ (e.before.users.map User.name).Nodup

/-- The names that a connection registered, in two parts of the history. -/
theorem registeredBy_append (conn : Conn) (history new : List Exchange) :
    registeredBy conn (history ++ new) = registeredBy conn history ++ registeredBy conn new := by
  simp [registeredBy]

/-- Names stay registered. -/
theorem mem_registeredBy_serve {s : Listener} {c : Conn} {name : Str}
    (h : name ∈ registeredBy c s.history) (conn : Conn) (addr : Addr) (newStr : Str) :
    name ∈ registeredBy c (s.serve conn addr newStr).history := by
  unfold serve
  rw [registeredBy_append]
  exact List.mem_append_left _ h

/-- Where connections only close, the open ones with one address stay unique. -/
theorem open_unique_mono {accepted : List (Conn × Addr)} {isOpen isOpen' : Conn → Bool}
    (h : ∀ p ∈ accepted, ∀ q ∈ accepted, p.2 = q.2 → isOpen p.1 = true → isOpen q.1 = true → p = q)
    (hle : ∀ c, isOpen' c = true → isOpen c = true) :
    ∀ p ∈ accepted, ∀ q ∈ accepted, p.2 = q.2 → isOpen' p.1 = true → isOpen' q.1 = true → p = q :=
  fun p hp q hq haddr hp' hq' => h p hp q hq haddr (hle _ hp') (hle _ hq')

/-- A new connection keeps the listener coherent, -/
theorem Coherent.accept {s : Listener} (h : s.Coherent) {conn : Conn} {addr : Addr}
    (hnew : ∀ p ∈ s.accepted, p.1 ≠ conn)
    (haddr : ∀ p ∈ s.accepted, p.2 = addr → s.world.isOpen p.1 = false) :
    (s.accept conn addr).Coherent := by
  have hold : ∀ p ∈ s.accepted, (s.accept conn addr).world.isOpen p.1 = s.world.isOpen p.1 :=
    fun p hp => accept_isOpen_of_ne (hnew p hp) addr
  refine ⟨?_, ?_, h.names, h.own, ?_, ?_⟩
  · unfold Listener.accept
    rw [List.map_append]
    apply h.conns.append (List.nodup_singleton _)
    intro c hc hc'
    obtain ⟨p, hp, rfl⟩ := List.mem_map.mp hc
    exact hnew p hp (by simpa using hc')
  · exact fun u hu => List.mem_append_left _ (h.entries u hu)
  · intro p hp q hq heq hpo hqo
    -- the new connection is the only open one with its address
    have hclosed : ∀ p ∈ s.accepted, p.2 = addr → (s.accept conn addr).world.isOpen p.1 ≠ true :=
      fun p hp hpa hpo => by
        rw [hold p hp, haddr p hp hpa] at hpo
        cases hpo
    rcases List.mem_append.mp hp with hp | hp <;> rcases List.mem_append.mp hq with hq | hq
    · rw [hold p hp] at hpo
      rw [hold q hq] at hqo
      exact h.open_unique p hp q hq heq hpo hqo
    · rw [List.mem_singleton.mp hq] at heq
      exact absurd hpo (hclosed p hp heq)
    · rw [List.mem_singleton.mp hp] at heq
      exact absurd hqo (hclosed q hq heq.symm)
    · rw [List.mem_singleton.mp hp, List.mem_singleton.mp hq]
  · exact fun e he => ⟨List.mem_append_left _ (h.handled e he).1, (h.handled e he).2⟩

/-- so does a request, -/
theorem Coherent.serve {s : Listener} (h : s.Coherent) {conn : Conn} {addr : Addr}
    (hmem : (conn, addr) ∈ s.accepted) (newStr : Str) : (s.serve conn addr newStr).Coherent := by
  refine ⟨h.conns, ?_, names_nodup_run_dispatch h.names conn addr newStr, ?_, ?_, ?_⟩
  · intro u hu
    rw [serve_users] at hu
    rcases mem_usersAfter hu with hu | ⟨-, rfl, -⟩
    · exact h.entries u hu
    · exact hmem
  · intro u hu
    rw [serve_users] at hu
    rcases mem_usersAfter hu with hu | ⟨hiam, rfl, hfree, -⟩
    · exact mem_registeredBy_serve (h.own u hu) conn addr newStr
    · unfold Listener.serve
      rw [registeredBy_append]
      apply List.mem_append_right
      simp [registeredBy, Exchange.registers, hiam, hfree]
  · exact open_unique_mono h.open_unique fun c => isOpen_of_run_dispatch
  · intro e he
    rcases List.mem_append.mp he with he | he
    · exact h.handled e he
    · rw [List.mem_singleton.mp he]
      exact ⟨hmem, h.names⟩

/-- the end of a handler -/
theorem Coherent.finish {s : Listener} (h : s.Coherent) (conn : Conn) (stop : Stop) :
    (s.finish conn stop).Coherent :=
  ⟨h.conns, h.entries, h.names, h.own, h.open_unique, h.handled⟩

/-- and a connection that breaks. -/
theorem Coherent.sever {s : Listener} (h : s.Coherent) (conn : Conn) : (s.sever conn).Coherent :=
  ⟨h.conns, h.entries, h.names, h.own, open_unique_mono h.open_unique fun _ => isOpen_of_sever,
    h.handled⟩

/-- **Every run is coherent.** -/
theorem coherent {cond : Listener → ListenerEvent → Prop} {s : Listener}
    (h : Reaches Initial cond Step s) : s.Coherent := by
  refine invariant ?_ (fun s conn addr hs _ => hs.accept)
    (fun s conn addr data stop hs _ _ _ _ => hs.finish conn stop)
    (fun s conn addr data newStr hs _ hmem _ _ _ _ => hs.serve hmem newStr)
    (fun s conn hs _ => hs.sever conn) h
  rintro s ⟨⟨husers, -⟩, haccepted, -, hhistory⟩
  exact ⟨by simp [haccepted], by simp [husers], by simp [husers], by simp [husers],
    by simp [haccepted], by simp [hhistory]⟩

/-! ## Two clients -/

/-- One client has registered. -/
def oneClient : Listener := (idle.accept 0 0).serve 0 0 (Request.iam ['a']).render

/-- Another one has registered too. -/
def twoClients : Listener := (oneClient.accept 1 1).serve 1 1 (Request.iam ['b']).render

section Clients

variable {cond : Listener → ListenerEvent → Prop} (h₁ : cond idle (.accepts 0 0))
  (h₂ : cond (idle.accept 0 0) (.receives 0 (wire (Request.iam ['a']).render)))
include h₁ h₂

/-- A client registers. -/
theorem reaches_oneClient : Reaches Initial cond Step oneClient := by
  have hconn : Reaches Initial cond Step (idle.accept 0 0) :=
    .step (.start initial_idle) h₁ (.accepts (by decide) (by decide))
  exact serve_request hconn 0 0 (.iam ['a']) (show '\r' ∉ ['a'] by decide) h₂ (by decide) rfl rfl

/-- Two clients register one after the other. -/
theorem reaches_twoClients (h₃ : cond oneClient (.accepts 1 1))
    (h₄ : cond (oneClient.accept 1 1) (.receives 1 (wire (Request.iam ['b']).render))) :
    Reaches Initial cond Step twoClients := by
  have hconn : Reaches Initial cond Step (oneClient.accept 1 1) :=
    .step (reaches_oneClient h₁ h₂) h₃ (.accepts (by decide) (by decide))
  exact serve_request hconn 1 1 (.iam ['b']) (show '\r' ∉ ['b'] by decide) h₄ (by decide) rfl rfl

end Clients

end Listener

end ME2U.Server
