import ME2U.Found.Runs
import ME2U.Server.Requests

/-!
# What a client can make the server send

Every frame the server sends is a text with the terminating sequence behind it, and the texts
contain names and messages that clients chose. The server deletes the terminating sequences in what
it receives, in one pass, so what is left may contain one again or end in its first half.

* `clean_run_dispatch`: a request that leaves no such text behind keeps the frames well terminated.
* `sent_wellTerminated`: so do all runs of such requests.
* `not_sent_wellTerminated`: a request that does not makes the server send a forged frame.
-/

namespace ME2U.Server

/-! ## Runs of the server -/

/-- What happens to the server: a handler handles the bytes of one `recv`, or a connection opens or
can no longer be sent to. -/
inductive Event
  | received (conn : Conn) (addr : Addr) (data : Bytes)
  | opens (conn : Conn)
  | drops (conn : Conn)

/-- The effect of an event. -/
def World.after (w : World) : Event → World
  | .received conn addr data => ((handleData conn addr data).run w).2
  | .opens conn => { w with isOpen := Function.update w.isOpen conn true }
  | .drops conn => { w with isOpen := Function.update w.isOpen conn false }

/-- The server when it starts listening. -/
def World.Initial (w : World) : Prop := w.users = [] ∧ w.sent = []

/-- The events one after another. -/
def World.Step (w : World) (e : Event) (w' : World) : Prop := w' = w.after e

/-! ## Harmless requests -/

/-- The texts of a request string that the server stores or sends on can stand in front of a
terminating sequence: a new name, the message to a registered name, and an unknown name. -/
def Harmless (w : World) (newStr : Str) : Prop :=
  (newStr.take 3 = Verb.iam → checkUserExists w.users (newStr.drop 4) = false →
    Terminable (newStr.drop 4)) ∧
  ∀ name msg, newStr.take 2 = Verb.toUser → newStr.drop 3 = name ++ ' ' :: msg → ' ' ∉ name →
    Terminable (if checkUserExists w.users name then msg else name)

/-- The events of which the bytes received decode to a harmless request string. -/
def World.HarmlessEvent (w : World) : Event → Prop
  | .received _ _ data => ∀ newStr, requestString data = some newStr → Harmless w newStr
  | _ => True

/-! ## The invariant -/

/-- The names in the registry are terminable, and what was sent is well terminated. -/
structure World.Clean (w : World) : Prop where
  /-- The names may stand in front of a terminating sequence. -/
  names : ∀ u ∈ w.users, Terminable u.name
  /-- The frames end in their only terminating sequence. -/
  frames : ∀ s ∈ w.sent, WellTerminated s.frame

/-- A frame with a terminable body keeps the world clean. -/
theorem World.Clean.logged {w : World} (hw : w.Clean) {body : Str} (hb : Terminable body)
    (c : Conn) : (w.logged c (encode (ending body))).Clean := by
  refine ⟨hw.names, fun s hs => ?_⟩
  rcases List.mem_append.mp hs with h | h
  · exact hw.frames s h
  · obtain rfl := List.mem_singleton.mp h
    exact wellTerminated_wire_iff.mpr hb

/-- Sending a terminable body keeps the world clean. -/
theorem keeps_send_terminable {body : Str} (hb : Terminable body) (c : Conn) :
    Eff.Keeps World.Clean (send c (encode (ending body))) :=
  keeps_send fun _ hw => hw.logged hb c

/-- A verb, a space and a terminable text. -/
theorem terminable_verb_append (verb : Str) {s : Str} (hv : '\r' ∉ verb) (hs : Terminable s) :
    Terminable (verb ++ ' ' :: s) :=
  (Terminable.of_notMem hv).append_space_cons hs

/-- The list of terminable names is terminable. -/
theorem terminable_getUsers {users : List User} (h : ∀ u ∈ users, Terminable u.name) :
    Terminable (getUsers users) := by
  rw [getUsers_eq_flatMap]
  induction users using List.reverseRecOn with
  | nil => decide
  | append_singleton users u ih =>
      have hinit := ih fun v hv => h v (by simp [hv])
      simpa using hinit.append_space_cons (h u (by simp))

/-- A name found by its address is that of an entry with the address. -/
theorem mem_of_getNameFromAddr {users : List User} {addr : Addr} {s : Str}
    (h : getNameFromAddr users addr = some s) : ∃ u ∈ users, u.addr = addr ∧ u.name = s := by
  induction users with
  | nil => cases h
  | cons u users ih =>
      rw [getNameFromAddr] at h
      split at h
      · next hu => exact ⟨u, by simp, hu, Option.some.inj h⟩
      · obtain ⟨v, hv, hs⟩ := ih h
        exact ⟨v, by simp [hv], hs⟩

/-! ## One request -/

/-- Using a name that may be `None`: only a name goes on. -/
theorem keeps_nameText_bind {α : Type} {I : World → Prop} {name : Option Str} {k : Str → Py α}
    (h : ∀ s, name = some s → Eff.Keeps I (k s)) : Eff.Keeps I (nameText name >>= k) := by
  cases name with
  | none => exact fun w hw => hw
  | some s => exact h s rfl

/-- Telling the users of a name keeps what the frames to them keep. -/
theorem keeps_sendOtToUsr_of {I : World → Prop} {users : List User} {name : Str}
    {fromName : Option Str}
    (h : ∀ i ∈ users, i.name = name → ∀ s, fromName = some s → ∀ w, I w →
      I (w.logged i.conn (encode (ending (Verb.ot ++ ' ' :: s))))) :
    Eff.Keeps I (sendOtToUsr users name fromName) := by
  induction users with
  | nil => exact .pure ()
  | cons i users ih =>
      have hrest := ih fun j hj => h j (by simp [hj])
      refine .ite (fun hi => keeps_nameText_bind fun s hs => ?_) fun _ => hrest
      exact .bind (keeps_send fun w => h i (by simp) hi s hs w) fun _ => hrest

/-- Telling everybody keeps what the frames to them keep. -/
theorem keeps_broadcastUoff_of {I : World → Prop} {users : List User} {name : Str}
    (h : ∀ i ∈ users, ∀ w, I w → I (w.logged i.conn (encode (ending (Verb.uoff ++ ' ' :: name))))) :
    Eff.Keeps I (broadcastUoff users name) := by
  induction users with
  | nil => exact .pure ()
  | cons i users ih =>
      refine .bind (keeps_send (h i (by simp))) fun _ => ?_
      exact ih fun j hj => h j (by simp [hj])

/-- A confirmation keeps the frames clean, -/
theorem keeps_sendOtToUsr (users : List User) (name : Str) {fromName : Option Str}
    (h : ∀ s, fromName = some s → Terminable s) :
    Eff.Keeps World.Clean (sendOtToUsr users name fromName) :=
  keeps_sendOtToUsr_of fun _ _ _ s hs _ hw =>
    hw.logged (terminable_verb_append _ (by decide) (h s hs)) _

/-- as does a broadcast -/
theorem keeps_broadcastUoff (users : List User) {name : Str} (h : Terminable name) :
    Eff.Keeps World.Clean (broadcastUoff users name) :=
  keeps_broadcastUoff_of fun _ _ _ hw => hw.logged (terminable_verb_append _ (by decide) h) _

/-- and a `BYE`. -/
theorem keeps_removeUsrByAddr (addr : Addr) : Eff.Keeps World.Clean (removeUsrByAddr addr) := by
  refine .get_bind fun w hw => ?_
  cases hfind : w.users.find? fun i => i.addr == addr with
  | none => exact hw
  | some i =>
      have hi := hw.names i (List.mem_of_find?_eq_some hfind)
      have hkeeps : Eff.Keeps World.Clean (do
          send i.conn (encode (ending Verb.eyb))
          close i.conn
          Eff.modify fun w => { w with users := w.users.erase i }
          let w ← Eff.get
          broadcastUoff w.users i.name) := by
        refine .bind (keeps_send_terminable (Terminable.of_notMem (by decide)) _) fun _ => ?_
        refine .bind (.modify fun w hw => ⟨hw.names, hw.frames⟩) fun _ => ?_
        refine .bind (.modify fun w hw => ⟨?_, hw.frames⟩) fun _ => ?_
        · exact fun u hu => hw.names u (List.mem_of_mem_erase hu)
        · exact .get_bind fun w hw => keeps_broadcastUoff _ hi w hw
      exact hkeeps w hw

/-- A `TO` keeps the world clean where what it names and says is harmless. -/
theorem clean_run_dispatch_to (conn : Conn) (addr : Addr) {newStr : Str} {w : World} (hw : w.Clean)
    (hto : newStr.take 2 = Verb.toUser)
    (hname : ∀ s, getNameFromAddr w.users addr = some s → Terminable s)
    (htext : ∀ name msg, newStr.drop 3 = name ++ ' ' :: msg → ' ' ∉ name →
      Terminable (if checkUserExists w.users name then msg else name)) :
    ((dispatch conn addr newStr).run w).2.Clean := by
  rcases run_dispatch_to_snd conn addr w hto with
    ⟨hrun, -⟩ | ⟨name, msg, hcut, hspace, ⟨i, s, hfind, hs, hrun⟩ | ⟨hfind, hrun⟩⟩
  · rwa [hrun]
  · have hmsg : Terminable msg := by
      have h := htext name msg hcut hspace
      rwa [checkUserExists_eq, hfind, if_pos (by simp)] at h
    rw [hrun]
    apply hw.logged
    exact terminable_verb_append _ (by decide) ((hname s hs).append_space_cons hmsg)
  · have hother : Terminable name := by
      have h := htext name msg hcut hspace
      rwa [checkUserExists_eq, hfind, if_neg (by simp)] at h
    rw [hrun]
    apply hw.logged
    exact terminable_verb_append _ (by decide) hother

/-- A harmless request keeps the world clean. -/
theorem clean_run_dispatch (conn : Conn) (addr : Addr) {newStr : Str} {w : World}
    (hw : w.Clean) (hharm : Harmless w newStr) : ((dispatch conn addr newStr).run w).2.Clean := by
  have hname : ∀ s, getNameFromAddr w.users addr = some s → Terminable s := by
    intro s hs
    obtain ⟨u, hu, -, rfl⟩ := mem_of_getNameFromAddr hs
    exact hw.names u hu
  have hverb : ∀ body, '\r' ∉ body → Eff.Keeps World.Clean (send conn (encode (ending body))) :=
    fun body hb => keeps_send_terminable (Terminable.of_notMem hb) conn
  by_cases hto : newStr.take 2 = Verb.toUser
  · exact clean_run_dispatch_to conn addr hw hto hname fun name msg => hharm.2 name msg hto
  rw [dispatch]
  split_ifs with hme2u hiam hlistu hmorf hbye
  · exact Eff.Keeps.bind (hverb Verb.u2em (by decide)) (fun _ => .pure LoopCtl.again) w hw
  · -- `IAM`: the world changes where the name is new
    rw [Eff.run_get_bind]
    split
    · exact hw
    · next hnew =>
        refine Eff.Keeps.bind (hverb Verb.mai (by decide)) (fun _ => ?_) w hw
        refine .bind (hverb (Verb.motd ++ ' ' :: motd) (by decide)) fun _ => ?_
        refine .bind (.modify fun w hw => ⟨?_, hw.frames⟩) fun _ => .pure LoopCtl.again
        intro u hu
        rcases List.mem_append.mp hu with h | h
        · exact hw.names u h
        · obtain rfl := List.mem_singleton.mp h
          exact hharm.1 hiam (by simpa using hnew)
  · rw [Eff.run_get_bind]
    have hbody := terminable_verb_append Verb.utsil (by decide) (terminable_getUsers hw.names)
    exact Eff.Keeps.bind (keeps_send_terminable hbody conn) (fun _ => .pure LoopCtl.again) w hw
  · rw [Eff.run_get_bind]
    exact Eff.Keeps.bind (keeps_sendOtToUsr _ _ hname) (fun _ => .pure LoopCtl.again) w hw
  · exact Eff.Keeps.bind (keeps_removeUsrByAddr addr) (fun _ => .pure LoopCtl.again) w hw
  · exact Eff.Keeps.bind (.modify fun w hw => ⟨hw.names, hw.frames⟩)
      (fun _ => .pure LoopCtl.again) w hw

/-! ## Runs of harmless requests -/

/-- A harmless event keeps the world clean. -/
theorem World.Clean.after {w : World} (hw : w.Clean) {e : Event} (he : w.HarmlessEvent e) :
    (w.after e).Clean := by
  cases e with
  | received conn addr data =>
      rw [World.after, handleData]
      cases hreq : requestString data with
      | none => exact hw
      | some newStr => exact clean_run_dispatch conn addr hw (he newStr hreq)
  | opens conn | drops conn => exact ⟨hw.names, hw.frames⟩

/-- **No frame inside a frame.** In a run of the server in which every request is harmless,
everything ever passed to `send` contains the terminating sequence once, at its end. -/
theorem sent_wellTerminated {w : World}
    (h : Reaches World.Initial World.HarmlessEvent World.Step w) :
    ∀ s ∈ w.sent, WellTerminated s.frame := by
  have hclean : w.Clean := h.invariant (I := World.Clean)
    (fun w hw => ⟨by simp [hw.1], by simp [hw.2]⟩)
    fun w e w' hw he (hstep : w' = w.after e) => hstep ▸ hw.after he
  exact hclean.frames

/-- A request string without a carriage return is harmless. -/
theorem Harmless.of_notMem {w : World} {newStr : Str} (h : '\r' ∉ newStr) : Harmless w newStr := by
  refine ⟨fun _ _ => .of_notMem fun hmem => h (List.mem_of_mem_drop hmem),
    fun name msg _ hparts _ => ?_⟩
  have hboth : '\r' ∉ name ++ ' ' :: msg := fun hmem => h (List.mem_of_mem_drop (hparts ▸ hmem))
  split_ifs
  · exact .of_notMem fun hmem => hboth (by simp [hmem])
  · exact .of_notMem fun hmem => hboth (by simp [hmem])

/-- A request of the first client. -/
private def asks (q : Request) : Event := .received 0 0 (wire q.render)

private def start : World := ⟨[], fun _ => true, []⟩

private theorem after_asks (w : World) {q : Request} (hq : q.CRFree) :
    w.after (asks q) = ((dispatch 0 0 q.render).run w).2 := by
  rw [asks, World.after, handleData_wire 0 0 hq]

private theorem harmlessEvent_asks (w : World) {q : Request} (hq : q.CRFree) :
    w.HarmlessEvent (asks q) := by
  intro newStr h
  rw [requestString_wire hq] at h
  cases h
  exact .of_notMem hq.notMem_render

/-- The client registers, writes to itself and to nobody, and asks for the list. -/
private def talk : World :=
  (((start.after (asks (.iam ['a']))).after (asks (.toUser ['a'] ['h']))).after
    (asks (.toUser ['b'] ['h']))).after (asks .listu)

/-- The answers of every kind to one client are well terminated. -/
theorem sent_wellTerminated_talk :
    talk.sent.map Sent.frame = [wire Verb.mai, wire (Verb.motd ++ ' ' :: motd),
      wire ['F', 'R', 'O', 'M', ' ', 'a', ' ', 'h'], wire ['E', 'D', 'N', 'E', ' ', 'b'],
      wire ['U', 'T', 'S', 'I', 'L', ' ', ' ', 'a']] ∧
      ∀ s ∈ talk.sent, WellTerminated s.frame := by
  constructor
  · unfold talk
    have hcr : '\r' ∉ ['a'] ∧ '\r' ∉ ['b'] ∧ '\r' ∉ ['h'] := by decide
    rw [after_asks _ (show Request.listu.CRFree from trivial),
      after_asks _ (show (Request.toUser ['b'] ['h']).CRFree from hcr.2),
      after_asks _ (show (Request.toUser ['a'] ['h']).CRFree from ⟨hcr.1, hcr.2.2⟩),
      after_asks _ (show (Request.iam ['a']).CRFree from hcr.1)]
    decide
  have hrun : Reaches World.Initial World.HarmlessEvent World.Step talk := by
    refine .step (.step (.step (.step (.start (show World.Initial start from ⟨rfl, rfl⟩))
      (harmlessEvent_asks _ ?_) rfl) (harmlessEvent_asks _ ?_) rfl) (harmlessEvent_asks _ ?_) rfl)
      (harmlessEvent_asks _ ?_) rfl <;> simp [Request.CRFree]
  exact sent_wellTerminated hrun

/-- A message in which one terminating sequence is wrapped around another, with a forged `EYB`
behind it: one deletion leaves the outer one. -/
def forgery : Str := ['x', '\r', '\r', '\n', '\r', '\n', '\n', '\r', '\n', 'E', 'Y', 'B']

/-- Without the condition a client makes the server send a frame with another frame inside. -/
theorem not_sent_wellTerminated :
    ¬∀ w : World, Reachable World.Initial World.Step w → ∀ s ∈ w.sent, WellTerminated s.frame := by
  intro hall
  have hreg : Reachable World.Initial World.Step (start.after (asks (.iam ['a']))) :=
    Reachable.next (s := start) (e := asks (.iam ['a'])) (.start ⟨rfl, rfl⟩) rfl
  have hto := hreg.next (e := .received 0 0 (encode (Request.toUser ['a'] forgery).render)) rfl
  have hsent := hall _ hto
    ⟨0, wire (['F', 'R', 'O', 'M', ' ', 'a', ' ', 'x'] ++ terminatingSequence ++ Verb.eyb), true⟩
        (by
      rw [World.after, handleData, requestString_encode, after_asks _ (by simp [Request.CRFree])]
      decide)
  exact absurd hsent (by decide)

end ME2U.Server
