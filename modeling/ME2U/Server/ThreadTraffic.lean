import Mathlib.Data.List.Forall2
import ME2U.Server.ThreadSafety

/-!
# What the threads send

* `Threads.relaysFaithfully`: the `FROM` frames of a thread are messages that its client asked for,
  each at most once and in the order asked for, to a connection that registered the name.
* `Threads.loginUndisturbed`: before a connection has registered nobody sends to it but its own
  thread, and what that sends are answers, and `MAI` and `MOTD` one after the other, right before
  the entry is appended.
-/

namespace ME2U.Server

/-! ## Messages -/

/-- The message that is asked for. -/
def Treatment.asks : Treatment → Option (Str × Str)
  | .request (.toUser name msg) => some (name, msg)
  | _ => none

/-- The message that was asked for. -/
def Act.asks : Act → Option (Str × Str)
  | .receives data => (requestString data).bind fun newStr => (treatment newStr).asks
  | _ => none

/-- The `FROM` that was sent. -/
def Act.relays : Act → Option (Conn × Str)
  | .sends dest body => if body.take 4 = Verb.fromUser then some (dest, body) else none
  | _ => none

/-- What the thread of the connection did. -/
def deedsOf (c : Conn) (ds : List Deed) : List Act :=
  ds.filterMap fun d => if d.conn = c then some d.act else none

/-- The messages that the client asked for, each with the name it is for. -/
def asked (c : Conn) (ds : List Deed) : List (Str × Str) := (deedsOf c ds).filterMap Act.asks

/-- The `FROM` frames that the thread sent, each with where to. -/
def relayed (c : Conn) (ds : List Deed) : List (Conn × Str) := (deedsOf c ds).filterMap Act.relays

/-- The message that the thread is about to relay. -/
def Pc.pending : Pc → List (Str × Str)
  | getNameFromAddr (.toUser name msg) _ | findUserToSendMsgTo name msg _ _
  | sendFrom name _ _ msg =>
      [(name, msg)]
  | _ => []

/-- The frame is the message, to a connection that registered the name, with a name registered from
the address of the sender. -/
def Meant (accepted : List (Conn × Addr)) (ds : List Deed) (c : Conn) (x : Conn × Str)
    (q : Str × Str) : Prop :=
  HasName ds x.1 q.1 ∧ ∃ s, Calls accepted ds c s ∧ x.2 = Verb.fromUser ++ ' ' :: (s ++ ' ' :: q.2)

/-- The frames of a thread are some of the messages asked for, in order, and the last message asked
for is the one that is pending, if there is one. -/
def Pc.Relays (c : Conn) (σ : Shared) (pc : Pc) : Prop :=
  ∃ l, List.Forall₂ (Meant σ.accepted σ.deeds c) (relayed c σ.deeds) l ∧
    (l ++ pc.pending).Sublist (asked c σ.deeds)

/-- A thread has done one thing more, -/
theorem deedsOf_append_self (c : Conn) (ds : List Deed) (a : Act) :
    deedsOf c (ds ++ [⟨c, a⟩]) = deedsOf c ds ++ [a] := by
  simp [deedsOf]

/-- and no other thread has. -/
theorem deedsOf_append_of_ne {c c' : Conn} (h : c' ≠ c) (ds : List Deed) (a : Act) :
    deedsOf c' (ds ++ [⟨c, a⟩]) = deedsOf c' ds := by
  simp [deedsOf, h.symm]

/-- What was asked for, with one deed more, -/
theorem asked_append (c : Conn) (ds : List Deed) (a : Act) :
    asked c (ds ++ [⟨c, a⟩]) = asked c ds ++ a.asks.toList := by
  unfold asked
  rw [deedsOf_append_self, List.filterMap_append]
  cases h : a.asks <;> simp [h]

/-- and what was relayed. -/
theorem relayed_append (c : Conn) (ds : List Deed) (a : Act) :
    relayed c (ds ++ [⟨c, a⟩]) = relayed c ds ++ a.relays.toList := by
  unfold relayed
  rw [deedsOf_append_self, List.filterMap_append]
  cases h : a.relays <;> simp [h]

/-- What a message was meant for stays so. -/
theorem Meant.mono {accepted accepted' : List (Conn × Addr)} {ds ds' : List Deed} {c : Conn}
    {x : Conn × Str} {q : Str × Str} (h : Meant accepted ds c x q) (hacc : accepted ⊆ accepted')
    (hds : ds ⊆ ds') : Meant accepted' ds' c x q := by
  obtain ⟨hname, s, hs, hbody⟩ := h
  exact ⟨hname.mono hds, s, hs.mono hacc hds, hbody⟩

namespace Pc

variable {c : Conn} {addr : Addr} {σ σ' : Shared} {pc pc' : Pc} {a : Act}

/-- What others do is no relaying of this thread's. -/
theorem Relays.stable (h : pc.Relays c σ) (hacc : σ.accepted ⊆ σ'.accepted)
    (hds : σ.deeds ⊆ σ'.deeds)
    (hown : deedsOf c σ'.deeds = deedsOf c σ.deeds) : pc.Relays c σ' := by
  obtain ⟨l, hl, hsub⟩ := h
  unfold Relays relayed asked
  rw [hown]
  exact ⟨l, hl.imp fun _ _ hm => hm.mono hacc hds, hsub⟩

/-- At the start of a request all of it is pending. -/
theorem pending_start (t : Treatment) : (start t).pending = t.asks.toList := by
  cases t with
  | unsplit | unknown => rfl
  | request q => cases q <;> rfl

/-- A received message is pending, if any is. -/
theorem pending_received (isOpen : Bool) (data : Bytes) :
    (received isOpen data).pending.Sublist (Act.receives data).asks.toList := by
  unfold received
  split_ifs
  · exact List.nil_sublist _
  · exact List.nil_sublist _
  · cases hreq : requestString data with
    | none => exact List.nil_sublist _
    | some newStr =>
        simp only [Act.asks, hreq, Option.bind_some, pending_start]
        exact List.Sublist.refl _

/-- What is answered begins otherwise than a relayed message. -/
theorem relays_of_isReply {body : Str} (h : IsReply body) (dest : Conn) :
    (Act.sends dest body).relays = none := by
  cases h <;> rfl

/-- The message is pending until the look-up of the sender is over, and then too. -/
theorem pending_lookup (call : Lookup) (idx idx' : ℕ) (fromName : Option Str) :
    (getNameFromAddr call idx').pending = (getNameFromAddr call idx).pending ∧
      (call.called fromName).pending = (getNameFromAddr call idx).pending := by
  cases call <;> exact ⟨rfl, rfl⟩

/-- A move relays nothing, and makes nothing pending but what was received, or it relays what was
pending. -/
theorem Moves.pending (h : Moves c addr σ pc a pc') (hknows : pc.Knows c σ) :
    (a.relays = none ∧ pc'.pending.Sublist (pc.pending ++ a.asks.toList)) ∨
      ∃ name dest s msg, pc = sendFrom name dest s msg ∧ pc'.pending = [] ∧
        a = .sends dest (Verb.fromUser ++ ' ' :: (s ++ ' ' :: msg)) := by
  induction h with
  | receives => exact .inl ⟨rfl, pending_received _ _⟩
  | replies => exact .inl ⟨relays_of_isReply hknows _, List.nil_sublist _⟩
  | relays => exact .inr ⟨_, _, _, _, rfl, rfl, rfl⟩
  | @callerFound call idx i =>
      rw [(pending_lookup call idx 0 (some i.user.name)).2]
      exact .inl ⟨rfl, List.sublist_append_left _ _⟩
  | @callerNext call idx =>
      rw [(pending_lookup call idx (idx + 1) none).1]
      exact .inl ⟨rfl, List.sublist_append_left _ _⟩
  | @callerEnd call idx =>
      rw [(pending_lookup call idx 0 none).2]
      exact .inl ⟨rfl, List.sublist_append_left _ _⟩
  | raises _ _ ih =>
      rcases ih hknows with ⟨hrelays, -⟩ | ⟨name, dest, s, msg, hpc, -, ha⟩
      · exact .inl ⟨hrelays, List.nil_sublist _⟩
      · exact .inr ⟨name, dest, s, msg, hpc, rfl, ha⟩
  | _ => exact .inl ⟨rfl, by simp [Pc.pending, Act.asks]⟩

/-- **A move relays only what was asked for.** -/
theorem Moves.relaysOf (h : Moves c addr σ pc a pc') (hknows : pc.Knows c σ)
    (hrelays : pc.Relays c σ) :
    pc'.Relays c (σ.after c a) := by
  obtain ⟨l, hl, hsub⟩ := hrelays
  have hl' : List.Forall₂ (Meant (σ.after c a).accepted (σ.after c a).deeds c)
      (relayed c σ.deeds) l := by
    rw [Shared.accepted_after]
    exact hl.imp fun _ _ hm => hm.mono (List.Subset.refl _) (Shared.deeds_subset_after σ c a)
  have hdeeds := Shared.deeds_after σ c a
  rcases h.pending hknows with ⟨hnone, hpending⟩ | ⟨name, dest, s, msg, rfl, hpending, rfl⟩
  · refine ⟨l, ?_, ?_⟩
    · rw [hdeeds, relayed_append, hnone, ← hdeeds, Option.toList_none, List.append_nil]
      exact hl'
    · rw [hdeeds, asked_append]
      refine ((List.append_sublist_append_left l).mpr hpending).trans ?_
      rw [← List.append_assoc]
      exact (List.append_sublist_append_right _).mpr hsub
  · -- the message that was pending is relayed
    refine ⟨l ++ [(name, msg)], ?_, ?_⟩
    · rw [hdeeds, relayed_append, ← hdeeds]
      refine List.rel_append hl' (.cons ?_ .nil)
      have hmeant : Meant σ.accepted σ.deeds c
          (dest, Verb.fromUser ++ ' ' :: (s ++ ' ' :: msg)) (name, msg) :=
        ⟨hknows.1, s, hknows.2, rfl⟩
      rw [Shared.accepted_after]
      exact hmeant.mono (List.Subset.refl _) (Shared.deeds_subset_after σ c _)
    · rw [hpending, List.append_nil, hdeeds, asked_append]
      exact hsub.trans (List.sublist_append_left _ _)

end Pc

/-- What a thread has relayed, and is about to relay. -/
def relaying : Discipline Conn Pc Shared where
  inv _ := True
  knows c pc σ := pc.Relays c σ
  rely c σ σ' :=
    σ.accepted ⊆ σ'.accepted ∧ σ.deeds ⊆ σ'.deeds ∧ deedsOf c σ'.deeds = deedsOf c σ.deeds
  stable _ _ _ _ _ h hrely := h.stable hrely.1 hrely.2.1 hrely.2.2

namespace Threads

variable {cond : Threads → ThreadEvent → Prop}

/-- In every run the invariant of the relay is obeyed. -/
theorem obeyed_relaying {s : Threads} (h : Reaches Initial cond Step s) :
    relaying.Obeyed s.shared s.pc := by
  refine obeyed relaying ?_ ?_ ?_ ?_ h
  · rintro s ⟨-, -, -, hdeeds, hpc⟩
    refine ⟨trivial, fun c => ⟨[], ?_, ?_⟩⟩
    · rw [hdeeds]
      exact .nil
    · rw [hpc]
      exact List.nil_sublist _
  · exact fun s conn addr _ hs _ => ⟨trivial, fun c =>
      ⟨List.subset_append_left _ _, List.Subset.refl _, rfl⟩⟩
  · intro s conn addr a pc hreach hs hmem hmoves
    refine ⟨trivial, hmoves.relaysOf ((obeyed_owning hreach).knows conn) (hs.knows conn),
      fun c hne => ⟨?_, Shared.deeds_subset_after _ _ _, ?_⟩⟩
    · rw [Shared.accepted_after]
      exact List.Subset.refl _
    · rw [Shared.deeds_after, deedsOf_append_of_ne hne]
  · exact fun s conn _ => ⟨trivial, fun c => ⟨List.Subset.refl _, List.Subset.refl _, rfl⟩⟩

/-- The `FROM` frames that the thread of a connection sends are messages that its client asked for,
in the order it asked for them and each at most once; each goes to a connection that registered the
name it was for, with a name of the client's own. -/
def RelaysFaithfully (c : Conn) (ds : List Deed) : Prop :=
  ∃ l, l.Sublist (asked c ds) ∧ List.Forall₂ (fun x q => HasName ds x.1 q.1 ∧
    ∃ name, HasName ds c name ∧ x.2 = Verb.fromUser ++ ' ' :: (name ++ ' ' :: q.2)) (relayed c ds) l

/-- **The relay is faithful, whatever the order** of the threads' steps: it makes up no message, and
neither repeats nor reorders any. -/
theorem relaysFaithfully {s : Threads} (h : Reaches Initial DistinctAddress Step s) (c : Conn) :
    RelaysFaithfully c s.shared.deeds := by
  obtain ⟨l, hl, hsub⟩ := (obeyed_relaying h).knows c
  refine ⟨l, (List.sublist_append_left _ _).trans hsub, hl.imp fun x q hm => ?_⟩
  obtain ⟨hdest, name, hcalls, hbody⟩ := hm
  exact ⟨hdest, name, hasName_of_calls h (List.Subset.refl _) hcalls, hbody⟩

/-- A message from one client to another. -/
theorem relaysFaithfully_message :
    ∃ s : Threads, s.shared.world = message.world ∧ RelaysFaithfully 0 s.shared.deeds := by
  obtain ⟨s, hs, hworld⟩ := exists_message
  exact ⟨s, hworld, relaysFaithfully hs 0⟩

end Threads

/-! ## Before the registration -/

/-- What was sent to a connection. -/
def Act.sentTo (c : Conn) : Act → Option Str
  | .sends dest body => if dest = c then some body else none
  | _ => none

/-- The bodies that were sent to a connection, whoever sent them. -/
def bodiesTo (c : Conn) (ds : List Deed) : List Str := ds.filterMap fun d => d.act.sentTo c

/-- The body of the second frame of a login. -/
def motdBody : Str := Verb.motd ++ ' ' :: motd

/-- The connection has not registered. -/
def Unregistered (ds : List Deed) (c : Conn) : Prop := ∀ name, ¬HasName ds c name

/-- What a login has sent so far, where the thread stands there. -/
def Pc.greeting : Pc → List Str
  | sendMotd _ => [Verb.mai]
  | append _ => [Verb.mai, motdBody]
  | _ => []

/-- What was sent to a connection that has not registered: answers, and then as much of a login as
its thread has got to, unless that has raised. -/
def Pc.Greets (c : Conn) (σ : Shared) (pc : Pc) : Prop :=
  (∃ e, pc = raised e) ∨ (Unregistered σ.deeds c →
    ∃ r, bodiesTo c σ.deeds = r ++ pc.greeting ∧ ∀ b ∈ r, IsReply b)

/-- A login: when the entry of a connection that has none is appended, what was sent to it are
answers, and `MAI` and `MOTD`. -/
def Greeted (pre : List Deed) (d : Deed) : Prop :=
  ∀ e, d.act = .appends e → Unregistered pre d.conn →
    ∃ r, bodiesTo d.conn pre = r ++ [Verb.mai, motdBody] ∧ ∀ b ∈ r, IsReply b

/-- What was sent to a connection, with one deed more. -/
theorem bodiesTo_append (c c' : Conn) (ds : List Deed) (a : Act) :
    bodiesTo c (ds ++ [⟨c', a⟩]) = bodiesTo c ds ++ (a.sentTo c).toList := by
  unfold bodiesTo
  rw [List.filterMap_append]
  cases h : a.sentTo c <;> simp [h]

/-- A thread that has no entry had none. -/
theorem Unregistered.mono {ds ds' : List Deed} {c : Conn}
    (h : Unregistered ds' c) (hds : ds ⊆ ds') :
    Unregistered ds c :=
  fun name hname => h name (hname.mono hds)

/-- **Only its own thread** sends to a connection that has not registered. -/
theorem Warranted.hasName {accepted : List (Conn × Addr)} {ds : List Deed}
    {c dest : Conn} {body : Str}
    (h : Warranted accepted ds c (.sends dest body)) : dest = c ∨ ∃ name, HasName ds dest name := by
  cases h with
  | replies | mai | motd => exact .inl rfl
  | relays _ hdest _ | confirms hdest _ | uoff hdest _ => exact .inr ⟨_, hdest⟩
  | eyb he => exact .inr ⟨_, _, he.1, rfl⟩

/-- What is sent to a connection that has registered is not sent to one that has not. -/
theorem sentTo_eq_none {ds : List Deed} {c dest : Conn} {name body : Str}
    (hname : HasName ds dest name)
    (hun : Unregistered ds c) : (Act.sends dest body).sentTo c = none := by
  refine if_neg ?_
  rintro rfl
  exact hun name hname

/-- So what others do adds nothing to what was sent to it. -/
theorem bodiesTo_of_ne {σ : Shared} {c c' : Conn} {a : Act} (ha : Warranted σ.accepted σ.deeds c a)
    (hne : c' ≠ c) (hun : Unregistered σ.deeds c') :
    bodiesTo c' (σ.after c a).deeds = bodiesTo c' σ.deeds := by
  have hnone : a.sentTo c' = none := by
    cases a with
    | sends dest body =>
        rcases ha.hasName with rfl | ⟨name, hname⟩
        · exact if_neg hne.symm
        · exact sentTo_eq_none hname hun
    | _ => rfl
  rw [Shared.deeds_after, bodiesTo_append, hnone, Option.toList_none, List.append_nil]

namespace Pc

variable {c : Conn} {addr : Addr} {σ σ' : Shared} {pc pc' : Pc} {a : Act}

theorem greeting_received (isOpen : Bool) (data : Bytes) :
    (received isOpen data).greeting = [] := by
  unfold received
  split_ifs
  · rfl
  · rfl
  · cases requestString data with
    | none => rfl
    | some newStr =>
        show (start (treatment newStr)).greeting = []
        cases treatment newStr with
        | unsplit | unknown => rfl
        | request q => cases q <;> rfl

theorem greeting_called (fromName : Option Str) (call : Lookup) :
    (call.called fromName).greeting = [] := by
  cases call <;> rfl

/-- What a move sends to its own client, which has not registered and does not by the move: an
answer, or the next frame of a login. -/
theorem Moves.greeting (h : Moves c addr σ pc a pc') (hknows : pc.Knows c σ)
    (hun : Unregistered (σ.after c a).deeds c) : (∃ e, pc' = raised e) ∨
      ∃ r, (∀ b ∈ r, IsReply b) ∧ pc.greeting ++ (a.sentTo c).toList = r ++ pc'.greeting := by
  have hun' : Unregistered σ.deeds c := hun.mono (Shared.deeds_subset_after σ c a)
  cases h with
  | raises => exact .inl ⟨_, rfl⟩
  | registers => exact absurd ⟨_, Shared.mem_deeds_after σ c _, rfl⟩ (hun _)
  | @replies body =>
      refine .inr ⟨[body], fun b hb => ?_, by simp [Pc.greeting, Act.sentTo]⟩
      rw [List.mem_singleton.mp hb]
      exact hknows
  | mai | motd => exact .inr ⟨[], by simp, by simp [Pc.greeting, Act.sentTo, motdBody]⟩
  | relays =>
      rw [sentTo_eq_none hknows.1 hun']
      exact .inr ⟨[], by simp, rfl⟩
  | confirms =>
      rw [sentTo_eq_none hknows.1 hun']
      exact .inr ⟨[], by simp, rfl⟩
  | eyb =>
      rw [sentTo_eq_none ⟨_, hknows.1.1, rfl⟩ hun']
      exact .inr ⟨[], by simp, rfl⟩
  | uoff =>
      obtain ⟨⟨name', hname'⟩, -⟩ := hknows
      rw [sentTo_eq_none hname' hun']
      exact .inr ⟨[], by simp, rfl⟩
  | receives =>
      rw [greeting_received]
      exact .inr ⟨[], by simp, rfl⟩
  | callerFound | callerEnd =>
      rw [greeting_called]
      exact .inr ⟨[], by simp, rfl⟩
  | _ => exact .inr ⟨[], by simp, rfl⟩

/-- **A move keeps the greeting.** -/
theorem Moves.greets (h : Moves c addr σ pc a pc') (hknows : pc.Knows c σ)
    (hgreets : pc.Greets c σ) :
    pc'.Greets c (σ.after c a) := by
  by_cases hun : Unregistered (σ.after c a).deeds c
  · rcases h.greeting hknows hun with hraised | ⟨r', hr', hnext⟩
    · exact .inl hraised
    · rcases hgreets with ⟨e, hpc⟩ | hgreets
      · exact absurd (show pc.Ended from hpc ▸ trivial) h.not_ended
      · obtain ⟨r, hbodies, hr⟩ := hgreets (hun.mono (Shared.deeds_subset_after σ c a))
        refine .inr fun _ => ⟨r ++ r', ?_, fun b hb => (List.mem_append.mp hb).elim (hr b) (hr' b)⟩
        rw [Shared.deeds_after, bodiesTo_append, hbodies, List.append_assoc,
          hnext, List.append_assoc]
  · exact .inr fun h => absurd h hun

/-- A move that appends comes after the two frames of a login. -/
theorem Moves.greeted (h : Moves c addr σ pc a pc') (hgreets : pc.Greets c σ) :
    Greeted σ.deeds ⟨c, a⟩ := by
  rintro e rfl hun
  cases h with
  | registers =>
      rcases hgreets with ⟨e, hpc⟩ | hgreets
      · cases hpc
      · exact hgreets hun

end Pc

/-- What was sent to a connection that has not registered. -/
def greeting : Discipline Conn Pc Shared where
  inv σ := Backed Greeted σ.deeds
  knows c pc σ := pc.Greets c σ
  rely c σ σ' := σ.deeds ⊆ σ'.deeds ∧
    (Unregistered σ.deeds c → bodiesTo c σ'.deeds = bodiesTo c σ.deeds)
  stable c pc σ σ' _ h hrely := by
    refine h.imp id fun hgreets hun => ?_
    have hun' := hun.mono hrely.1
    obtain ⟨r, hbodies, hr⟩ := hgreets hun'
    exact ⟨r, (hrely.2 hun').trans hbodies, hr⟩

namespace Threads

variable {cond : Threads → ThreadEvent → Prop}

/-- In every run the invariant of the greeting is obeyed. -/
theorem obeyed_greeting {s : Threads} (h : Reaches Initial cond Step s) :
    greeting.Obeyed s.shared s.pc := by
  refine obeyed greeting ?_ ?_ ?_ ?_ h
  · rintro s ⟨-, -, -, hdeeds, hpc⟩
    refine ⟨?_, fun c => .inr fun _ => ⟨[], ?_, by simp⟩⟩
    · show Backed Greeted s.shared.deeds
      rw [hdeeds]
      exact .nil
    · rw [hdeeds, hpc]
      rfl
  · exact fun s conn addr _ hs _ => ⟨hs.inv, fun c => ⟨List.Subset.refl _, fun _ => rfl⟩⟩
  · intro s conn addr a pc hreach hs hmem hmoves
    have hknows := (obeyed_owning hreach).knows conn
    refine ⟨?_, hmoves.greets hknows (hs.knows conn), fun c hne =>
      ⟨Shared.deeds_subset_after _ _ _,
        bodiesTo_of_ne (hmoves.warranted (sound hreach) hmem hknows) hne⟩⟩
    show Backed Greeted (s.shared.after conn a).deeds
    rw [Shared.deeds_after]
    exact Backed.append hs.inv (hmoves.greeted (hs.knows conn))
  · exact fun s conn hs => ⟨hs.inv, fun c => ⟨List.Subset.refl _, fun _ => rfl⟩⟩

/-- To a connection that has not registered only its own thread sends, and its registration comes
right after a login. -/
def Undisturbed (pre : List Deed) (d : Deed) : Prop :=
  (∀ dest body, d.act = .sends dest body → dest ≠ d.conn → ∃ name, HasName pre dest name) ∧
    Greeted pre d

/-- **Logins are undisturbed, whatever the order** of the threads' steps: a client that has not
registered gets answers to its own requests only, and its `MAI` is directly followed by its
`MOTD`. -/
theorem loginUndisturbed {s : Threads} (h : Reaches Initial cond Step s) :
    Backed Undisturbed s.shared.deeds := by
  intro pre d post hds
  refine ⟨fun dest body hact hne => ?_, (obeyed_greeting h).inv pre d post hds⟩
  have hwarrant : Warranted s.shared.accepted pre d.conn d.act := (sound h).warranted pre d post hds
  rw [hact] at hwarrant
  exact hwarrant.hasName.resolve_left hne

/-- Two clients log in. -/
theorem loginUndisturbed_two_clients :
    ∃ s : Threads, s.shared.world = message.world ∧ Backed Undisturbed s.shared.deeds := by
  obtain ⟨s, hs, hworld⟩ := exists_message
  exact ⟨s, hworld, loginUndisturbed hs⟩

end Threads

end ME2U.Server
