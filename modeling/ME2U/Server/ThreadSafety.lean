import Mathlib.Data.List.Nodup
import ME2U.Server.ThreadRuns

/-!
# What the threads cannot do to one another

The handler threads share the list `users` without a lock. Whatever the order of their steps, each
thing that a thread does has its warrant in what was done before: an entry was appended by the
thread of its connection, a name in a frame was looked up by the address, a `UOFF` is about an entry
that is gone.

* `Warranted`: what each thing done needs to have been done before.
* `Shared.Sound`: everything was warranted, and the list is what was appended and not removed.
* `Threads.sound`: this holds in every state of every run.
* `Threads.sendersGenuine`, `Threads.untouched`: where connections have distinct addresses, a
  thread speaks in the names of its own client only, and removes and closes only what is its own.
* `Threads.ghost_stays`: so the entry of a thread that has ended is never removed.
-/

namespace ME2U.Server

/-! ## The record -/

/-- The entry that was appended. -/
def Act.appended : Act → Option Entry
  | .appends e => some e
  | _ => none

/-- The entry that was removed. -/
def Act.removed : Act → Option Entry
  | .removes e => some e
  | _ => none

/-- The entries appended, in order. -/
def appended (ds : List Deed) : List Entry := ds.filterMap fun d => d.act.appended

/-- The entries removed, in order. -/
def removed (ds : List Deed) : List Entry := ds.filterMap fun d => d.act.removed

/-- The connection registered a name. -/
def HasName (ds : List Deed) (c : Conn) (name : Str) : Prop :=
  ∃ e, ⟨c, .appends e⟩ ∈ ds ∧ e.user.name = name

/-- A user of that name was removed by the thread. -/
def Withdrew (ds : List Deed) (c : Conn) (name : Str) : Prop :=
  ∃ e, ⟨c, .removes e⟩ ∈ ds ∧ e.user.name = name

/-- The entry was appended for a connection with the address of this one. -/
def Matches (accepted : List (Conn × Addr)) (ds : List Deed) (c : Conn) (e : Entry) : Prop :=
  ⟨e.user.conn, .appends e⟩ ∈ ds ∧ (c, e.user.addr) ∈ accepted

/-- A name that was registered from the address of the connection. -/
def Calls (accepted : List (Conn × Addr)) (ds : List Deed) (c : Conn) (name : Str) : Prop :=
  ∃ e, Matches accepted ds c e ∧ e.user.name = name

/-- The answers to a client's own requests, but for those to an `IAM` and a `BYE`. -/
inductive IsReply : Str → Prop
  | u2em : IsReply Verb.u2em
  | utsil (t : Str) : IsReply (Verb.utsil ++ ' ' :: t)
  | edne (name : Str) : IsReply (Verb.edne ++ ' ' :: name)

/-- **What a thread may do** after what was done before. -/
inductive Warranted (accepted : List (Conn × Addr)) (ds : List Deed) (c : Conn) : Act → Prop
  | receives (data : Bytes) : Warranted accepted ds c (.receives data)
  | looks : Warranted accepted ds c .looks
  | replies {body} : IsReply body → Warranted accepted ds c (.sends c body)
  | mai : Warranted accepted ds c (.sends c Verb.mai)
  | motd : Warranted accepted ds c (.sends c (Verb.motd ++ ' ' :: Server.motd))
  | appends {e} : e.user.conn = c → (c, e.user.addr) ∈ accepted →
      (∀ e' ∈ appended ds, e'.id ≠ e.id) →
      Warranted accepted ds c (.appends e)
  | relays {dest name s} (msg : Str) : HasName ds dest name → Calls accepted ds c s →
      Warranted accepted ds c (.sends dest (Verb.fromUser ++ ' ' :: (s ++ ' ' :: msg)))
  | confirms {dest name s} : HasName ds dest name → Calls accepted ds c s →
      Warranted accepted ds c (.sends dest (Verb.ot ++ ' ' :: s))
  | eyb {e} : Matches accepted ds c e → Warranted accepted ds c (.sends e.user.conn Verb.eyb)
  | closes {e} : Matches accepted ds c e → Warranted accepted ds c (.closes e.user.conn)
  | closesUnknown : Warranted accepted ds c (.closes c)
  | removes {e} : Matches accepted ds c e → Warranted accepted ds c (.removes e)
  | uoff {dest name s} : HasName ds dest name → Withdrew ds c s →
      Warranted accepted ds c (.sends dest (Verb.uoff ++ ' ' :: s))

section Mono

variable {accepted accepted' : List (Conn × Addr)} {ds ds' : List Deed} {c : Conn}
    {name : Str} {e : Entry}

/-- What a thread has done stays done: it has its name, -/
theorem HasName.mono (h : HasName ds c name) (hds : ds ⊆ ds') : HasName ds' c name := by
  obtain ⟨e, he, hname⟩ := h
  exact ⟨e, hds he, hname⟩

/-- it has withdrawn it, -/
theorem Withdrew.mono (h : Withdrew ds c name) (hds : ds ⊆ ds') : Withdrew ds' c name := by
  obtain ⟨e, he, hname⟩ := h
  exact ⟨e, hds he, hname⟩

/-- it has made its entry -/
theorem Matches.mono (h : Matches accepted ds c e) (hacc : accepted ⊆ accepted') (hds : ds ⊆ ds') :
    Matches accepted' ds' c e :=
  ⟨hds h.1, hacc h.2⟩

/-- and it is called by its name. -/
theorem Calls.mono (h : Calls accepted ds c name) (hacc : accepted ⊆ accepted') (hds : ds ⊆ ds') :
    Calls accepted' ds' c name := by
  obtain ⟨e, he, hname⟩ := h
  exact ⟨e, he.mono hacc hds, hname⟩

/-- A warrant is good however many connections are accepted later. -/
theorem Warranted.mono {a : Act} (h : Warranted accepted ds c a) (hacc : accepted ⊆ accepted') :
    Warranted accepted' ds c a := by
  cases h with
  | receives data => exact .receives data
  | looks => exact .looks
  | replies h => exact .replies h
  | mai => exact .mai
  | motd => exact .motd
  | appends hconn haddr hid => exact .appends hconn (hacc haddr) hid
  | relays msg hdest hs => exact .relays msg hdest (hs.mono hacc (List.Subset.refl _))
  | confirms hdest hs => exact .confirms hdest (hs.mono hacc (List.Subset.refl _))
  | eyb he => exact .eyb (he.mono hacc (List.Subset.refl _))
  | closes he => exact .closes (he.mono hacc (List.Subset.refl _))
  | closesUnknown => exact .closesUnknown
  | removes he => exact .removes (he.mono hacc (List.Subset.refl _))
  | uoff hdest hs => exact .uoff hdest hs

end Mono

/-- The entries appended, with one deed more, -/
theorem appended_append (ds : List Deed) (c : Conn) (a : Act) :
    appended (ds ++ [⟨c, a⟩]) = appended ds ++ a.appended.toList := by
  unfold appended
  rw [List.filterMap_append]
  cases a <;> rfl

/-- and those removed. -/
theorem removed_append (ds : List Deed) (c : Conn) (a : Act) :
    removed (ds ++ [⟨c, a⟩]) = removed ds ++ a.removed.toList := by
  unfold removed
  rw [List.filterMap_append]
  cases a <;> rfl

theorem mem_appended {ds : List Deed} {e : Entry} :
    e ∈ appended ds ↔ ∃ c, ⟨c, .appends e⟩ ∈ ds := by
  unfold appended
  rw [List.mem_filterMap]
  constructor
  · rintro ⟨⟨c, a⟩, hmem, ha⟩
    cases a with
    | appends e' =>
        cases ha
        exact ⟨c, hmem⟩
    | _ => cases ha
  · rintro ⟨c, hmem⟩
    exact ⟨_, hmem, rfl⟩

theorem mem_removed {ds : List Deed} {e : Entry} : e ∈ removed ds ↔ ∃ c, ⟨c, .removes e⟩ ∈ ds := by
  unfold removed
  rw [List.mem_filterMap]
  constructor
  · rintro ⟨⟨c, a⟩, hmem, ha⟩
    cases a with
    | removes e' =>
        cases ha
        exact ⟨c, hmem⟩
    | _ => cases ha
  · rintro ⟨c, hmem⟩
    exact ⟨_, hmem, rfl⟩

/-! ## What holds of what is shared -/

/-- Every deed had its warrant in those before it. -/
def AllWarranted (accepted : List (Conn × Addr)) (ds : List Deed) : Prop :=
  Backed (fun pre d => Warranted accepted pre d.conn d.act) ds

namespace Shared

/-- Connections are accepted once, every deed was warranted, entries have numbers of their own, and
the list is what was appended and has not been removed, in the order of the appends. -/
structure Sound (σ : Shared) : Prop where
  conns : (σ.accepted.map Prod.fst).Nodup
  warranted : AllWarranted σ.accepted σ.deeds
  made : ∀ e ∈ appended σ.deeds, e.id < σ.made
  ids : ((appended σ.deeds).map Entry.id).Nodup
  registry : σ.users = (appended σ.deeds).filter (· ∉ removed σ.deeds)

/-- Connections have distinct addresses. -/
def Distinct (σ : Shared) : Prop := (σ.accepted.map Prod.snd).Nodup

namespace Sound

variable {σ : Shared} (h : σ.Sound)
include h

/-- What was appended was the entry of the connection. -/
theorem entry {c : Conn} {e : Entry} (he : ⟨c, .appends e⟩ ∈ σ.deeds) :
    e.user.conn = c ∧ (c, e.user.addr) ∈ σ.accepted := by
  obtain ⟨pre, -, hwarrant⟩ := h.warranted.of_mem he
  cases hwarrant with
  | appends hconn haddr => exact ⟨hconn, haddr⟩

/-- What was removed had been appended. -/
theorem matches_of_removes {c : Conn} {e : Entry} (he : ⟨c, .removes e⟩ ∈ σ.deeds) :
    Matches σ.accepted σ.deeds c e := by
  obtain ⟨pre, hpre, hwarrant⟩ := h.warranted.of_mem he
  cases hwarrant with
  | removes hmatches => exact hmatches.mono (List.Subset.refl _) hpre

/-- What is in the list was appended by the thread of its connection. -/
theorem own {e : Entry} (he : e ∈ σ.users) : ⟨e.user.conn, .appends e⟩ ∈ σ.deeds := by
  rw [h.registry] at he
  obtain ⟨c, hc⟩ := mem_appended.mp (List.mem_of_mem_filter he)
  rw [(h.entry hc).1]
  exact hc

/-- No entry is in the list twice. -/
theorem users_nodup : σ.users.Nodup := by
  rw [h.registry]
  exact (h.ids.of_map _).filter _

/-- Where addresses are distinct, the entry with the address of a connection is its own. -/
theorem conn_of_matches (hdistinct : σ.Distinct) {c : Conn} {e : Entry}
    (he : Matches σ.accepted σ.deeds c e) : e.user.conn = c := by
  have hentry := (h.entry he.1).2
  exact congrArg Prod.fst (List.inj_on_of_nodup_map hdistinct hentry he.2 rfl)

end Sound

/-- What is shared after what others did, as far as one thread cares. -/
structure Rely (c : Conn) (σ σ' : Shared) : Prop where
  accepted : σ.accepted ⊆ σ'.accepted
  deeds : σ.deeds ⊆ σ'.deeds
  distinct : σ'.Distinct → σ.Distinct
  /-- Nobody else removes an entry of the connection, where addresses are distinct. -/
  users : σ'.Distinct → ∀ e ∈ σ.users, e.user.conn = c → e ∈ σ'.users

variable {σ : Shared} {c : Conn} {a : Act}

theorem deeds_subset_after (σ : Shared) (c : Conn) (a : Act) : σ.deeds ⊆ (σ.after c a).deeds := by
  rw [deeds_after]
  exact List.subset_append_left _ _

theorem mem_deeds_after (σ : Shared) (c : Conn) (a : Act) : ⟨c, a⟩ ∈ (σ.after c a).deeds := by
  rw [deeds_after]
  exact List.mem_append_right _ List.mem_cons_self

/-- Only removing takes something out of the list. -/
theorem mem_users_after {e : Entry} (he : e ∈ σ.users) (ha : ∀ e', a = .removes e' → e ≠ e') :
    e ∈ (σ.after c a).users := by
  cases a with
  | removes e' => exact (List.mem_erase_of_ne (ha e' rfl)).mpr he
  | appends e' => exact List.mem_append_left _ he
  | receives | looks | sends | closes => exact he

/-- **What a warranted step leaves to the others.** -/
theorem Sound.rely (h : σ.Sound) (ha : Warranted σ.accepted σ.deeds c a)
    {c' : Conn} (hne : c' ≠ c) :
    Rely c' σ (σ.after c a) := by
  refine ⟨?_, deeds_subset_after σ c a, fun hd => ?_, fun hd e he heq => mem_users_after he ?_⟩
  · rw [accepted_after]
    exact List.Subset.refl _
  · unfold Distinct at hd ⊢
    rwa [accepted_after] at hd
  · rintro e' rfl rfl
    cases ha with
    | removes hmatches =>
        unfold Distinct at hd
        rw [accepted_after] at hd
        exact hne (heq.symm.trans (h.conn_of_matches hd hmatches))

/-- The list after a step. -/
theorem Sound.registry_after (h : σ.Sound) (ha : Warranted σ.accepted σ.deeds c a) :
    (σ.after c a).users = (appended (σ.after c a).deeds).filter
    (· ∉ removed (σ.after c a).deeds) := by
  rw [deeds_after, appended_append, removed_append]
  cases a with
  | receives | looks | sends | closes =>
      simp only [Act.appended, Act.removed, Option.toList_none, List.append_nil]
      exact h.registry
  | appends e =>
      have hnew : e ∉ removed σ.deeds := by
        intro hmem
        obtain ⟨c', hc'⟩ := mem_removed.mp hmem
        cases ha with
        | appends _ _ hid =>
            exact hid e (mem_appended.mpr ⟨_, (h.matches_of_removes hc').1⟩) rfl
      simp only [Act.appended, Act.removed, Option.toList_none, Option.toList_some, List.append_nil]
      rw [List.filter_append, ← h.registry]
      simp [after, act, recorded, hnew]
  | removes e =>
      simp only [Act.appended, Act.removed, Option.toList_none, Option.toList_some, List.append_nil]
      show σ.users.erase e = _
      rw [h.users_nodup.erase_eq_filter, h.registry, List.filter_filter]
      refine List.filter_congr fun x _ => ?_
      rw [Bool.eq_iff_iff]
      simp [and_comm]

/-- **A warranted step keeps everything sound.** -/
theorem Sound.after (h : σ.Sound) (ha : Warranted σ.accepted σ.deeds c a)
    (hmade : ∀ e, a = .appends e → e.id = σ.made) : (σ.after c a).Sound := by
  refine ⟨?_, ?_, ?_, ?_, h.registry_after ha⟩
  · rw [accepted_after]
    exact h.conns
  · rw [accepted_after, deeds_after]
    exact h.warranted.append ha
  · rw [deeds_after, appended_append]
    cases a with
    | appends e =>
        intro e' he'
        rcases List.mem_append.mp he' with he' | he'
        · exact (h.made e' he').trans (Nat.lt_succ_self _)
        · obtain rfl := List.mem_singleton.mp he'
          rw [hmade e' rfl]
          exact Nat.lt_succ_self _
    | _ =>
        simp only [Act.appended, Option.toList_none, List.append_nil]
        exact h.made
  · rw [deeds_after, appended_append, List.map_append]
    cases ha with
    | @appends e _ _ hid =>
        refine h.ids.append (List.nodup_singleton _) ?_
        intro n hn hn'
        obtain ⟨e', he', rfl⟩ := List.mem_map.mp hn
        exact hid e' he' (List.mem_singleton.mp hn')
    | _ =>
        simp only [Act.appended, Option.toList_none, List.map_nil, List.append_nil]
        exact h.ids

end Shared

/-! ## What a thread knows -/

/-- What the thread of a connection knows where it stands. -/
def Pc.Knows (c : Conn) (σ : Shared) : Pc → Prop
  | findUserToSendMsgTo _ _ (some s) _ | sendOtToUsr _ (some s) _ => Calls σ.accepted σ.deeds c s
  | sendFrom name dest s _ | sendOt name s _ dest =>
      HasName σ.deeds dest name ∧ Calls σ.accepted σ.deeds c s
  | sendEyb toRem | close toRem | remove toRem =>
      Matches σ.accepted σ.deeds c toRem ∧ (σ.Distinct → toRem ∈ σ.users)
  | broadcastUoff name _ => Withdrew σ.deeds c name
  | sendUoff name _ dest => (∃ name', HasName σ.deeds dest name') ∧ Withdrew σ.deeds c name
  | reply body => IsReply body
  | _ => True

namespace Pc

variable {c : Conn} {addr : Addr} {σ σ' : Shared} {pc pc' : Pc} {a : Act}

/-- What a thread knows stays so, whatever the others do. -/
theorem Knows.stable (h : pc.Knows c σ) (hσ : σ.Sound) (hrely : σ.Rely c σ') : pc.Knows c σ' := by
  have hentry : ∀ toRem : Entry, Matches σ.accepted σ.deeds c toRem ∧
    (σ.Distinct → toRem ∈ σ.users) →
      Matches σ'.accepted σ'.deeds c toRem ∧ (σ'.Distinct → toRem ∈ σ'.users) := by
    rintro toRem ⟨hmatches, hmem⟩
    refine ⟨hmatches.mono hrely.accepted hrely.deeds, fun hd => ?_⟩
    have hd' := hrely.distinct hd
    exact hrely.users hd toRem (hmem hd') (hσ.conn_of_matches hd' hmatches)
  cases pc with
  | findUserToSendMsgTo _ _ fromName =>
      cases fromName with
      | none => trivial
      | some s => exact Calls.mono h hrely.accepted hrely.deeds
  | sendOtToUsr _ fromName =>
      cases fromName with
      | none => trivial
      | some s => exact Calls.mono h hrely.accepted hrely.deeds
  | sendFrom | sendOt => exact ⟨h.1.mono hrely.deeds, h.2.mono hrely.accepted hrely.deeds⟩
  | sendEyb toRem | close toRem | remove toRem => exact hentry toRem h
  | broadcastUoff => exact Withdrew.mono h hrely.deeds
  | sendUoff =>
      obtain ⟨⟨name', hname'⟩, hgone⟩ := h
      exact ⟨⟨name', hname'.mono hrely.deeds⟩, hgone.mono hrely.deeds⟩
  | reply => exact h
  | _ => trivial

/-- Where a thread stands after `recv`, it knows nothing. -/
theorem knows_received (c : Conn) (σ : Shared) (isOpen : Bool) (data : Bytes) :
    (received isOpen data).Knows c σ := by
  unfold received
  split_ifs
  · trivial
  · trivial
  · cases requestString data with
    | none => trivial
    | some newStr =>
        show (start (treatment newStr)).Knows c σ
        cases treatment newStr with
        | unsplit | unknown => trivial
        | request q =>
            cases q with
            | me2u => exact .u2em
            | iam | listu | toUser | morf | bye => trivial

/-- What is at an index of the list was appended by the thread of its connection. -/
theorem hasName_of_getElem? (hσ : σ.Sound) {idx : ℕ} {i : Entry} (hi : σ.users[idx]? = some i) :
    HasName σ.deeds i.user.conn i.user.name :=
  ⟨i, hσ.own (List.mem_of_getElem? hi), rfl⟩

/-- An entry with the address of the connection. -/
theorem matches_of_getElem? (hσ : σ.Sound) (hmem : (c, addr) ∈ σ.accepted) {idx : ℕ} {i : Entry}
    (hi : σ.users[idx]? = some i) (haddr : i.user.addr = addr) :
    Matches σ.accepted σ.deeds c i := by
  refine ⟨hσ.own (List.mem_of_getElem? hi), ?_⟩
  rw [haddr]
  exact hmem

/-- **A move has its warrant** in what the thread knows. -/
theorem Moves.warranted (h : Moves c addr σ pc a pc') (hσ : σ.Sound) (hmem : (c, addr) ∈ σ.accepted)
    (hknows : pc.Knows c σ) : Warranted σ.accepted σ.deeds c a := by
  induction h with
  | receives => exact .receives _
  | mai => exact .mai
  | motd => exact .motd
  | registers => exact .appends rfl hmem fun e he => (hσ.made e he).ne
  | replies => exact .replies hknows
  | relays => exact .relays _ hknows.1 hknows.2
  | confirms => exact .confirms hknows.1 hknows.2
  | eyb => exact .eyb hknows.1
  | closes => exact .closes hknows.1
  | removes => exact .removes hknows.1
  | uoff =>
      obtain ⟨⟨name', hname'⟩, hgone⟩ := hknows
      exact .uoff hname' hgone
  | closesUnknown => exact .closesUnknown
  | raises _ _ ih => exact ih hknows
  | _ => exact .looks

/-- A new entry has the next number. -/
theorem Moves.id_eq {e : Entry} (h : Moves c addr σ pc (.appends e) pc') : e.id = σ.made := by
  cases h
  rfl

/-- **A move leads to where the thread knows** what it has to know. -/
theorem Moves.knows (h : Moves c addr σ pc a pc') (hσ : σ.Sound) (hmem : (c, addr) ∈ σ.accepted)
    (hknows : pc.Knows c σ) : pc'.Knows c (σ.after c a) := by
  have hcalls : ∀ s, Calls σ.accepted σ.deeds c s →
      Calls (σ.after c a).accepted (σ.after c a).deeds c s := by
    intro s hs
    rw [Shared.accepted_after]
    exact hs.mono (List.Subset.refl _) (Shared.deeds_subset_after σ c a)
  have hname : ∀ dest name, HasName σ.deeds dest name → HasName (σ.after c a).deeds dest name :=
    fun _ _ hn => hn.mono (Shared.deeds_subset_after σ c a)
  have hgone : ∀ name, Withdrew σ.deeds c name → Withdrew (σ.after c a).deeds c name :=
    fun _ hn => hn.mono (Shared.deeds_subset_after σ c a)
  have hentry : ∀ toRem, (∀ e, a ≠ .removes e) →
      Matches σ.accepted σ.deeds c toRem ∧ (σ.Distinct → toRem ∈ σ.users) →
      Matches (σ.after c a).accepted (σ.after c a).deeds c toRem ∧
        ((σ.after c a).Distinct → toRem ∈ (σ.after c a).users) := by
    rintro toRem ha ⟨hmatches, hin⟩
    unfold Shared.Distinct
    rw [Shared.accepted_after]
    exact ⟨hmatches.mono (List.Subset.refl _) (Shared.deeds_subset_after σ c a),
      fun hd => Shared.mem_users_after (hin hd) fun e he => absurd he (ha e)⟩
  cases h with
  | receives => exact knows_received c _ _ _
  | usersEnd => exact .utsil _
  | receiverEnd => exact .edne _
  | @callerFound call idx i hi haddr =>
      have hcall := hcalls _ ⟨i, matches_of_getElem? hσ hmem hi haddr, rfl⟩
      cases call <;> exact hcall
  | @callerEnd call => cases call <;> trivial
  | receiverFound hi heq => exact ⟨hname _ _ (heq ▸ hasName_of_getElem? hσ hi), hcalls _ hknows⟩
  | @receiverNext name msg fromName =>
      cases fromName with
      | none => trivial
      | some s => exact hcalls _ hknows
  | confirmedFound hi heq => exact ⟨hname _ _ (heq ▸ hasName_of_getElem? hσ hi), hcalls _ hknows⟩
  | @confirmedNext name fromName =>
      cases fromName with
      | none => trivial
      | some s => exact hcalls _ hknows
  | confirms => exact hcalls _ hknows.2
  | leaverFound hi haddr =>
      exact hentry _ (fun _ => nofun) ⟨matches_of_getElem? hσ hmem hi haddr,
        fun _ => List.mem_of_getElem? hi⟩
  | eyb | closes => exact hentry _ (fun _ => nofun) hknows
  | @removes toRem => exact ⟨toRem, Shared.mem_deeds_after σ c _, rfl⟩
  | uoffNext hi => exact ⟨⟨_, hname _ _ (hasName_of_getElem? hσ hi)⟩, hgone _ hknows⟩
  | uoff => exact hgone _ hknows.2
  | _ => trivial

end Pc

/-! ## Every run -/

/-- What the threads keep to. -/
def owning : Discipline Conn Pc Shared where
  inv := Shared.Sound
  knows c pc σ := pc.Knows c σ
  rely := Shared.Rely
  stable _ _ _ _ hσ hknows hrely := hknows.stable hσ hrely

namespace Threads

variable {cond : Threads → ThreadEvent → Prop}

/-- In every run the invariant of the owner is obeyed. -/
theorem obeyed_owning {s : Threads} (h : Reaches Initial cond Step s) :
    owning.Obeyed s.shared s.pc := by
  refine obeyed owning ?_ ?_ ?_ ?_ h
  · rintro s ⟨husers, -, haccepted, hdeeds, hpc⟩
    refine ⟨⟨?_, ?_, ?_, ?_, ?_⟩, fun c => ?_⟩
    · simp [haccepted]
    · unfold AllWarranted
      rw [hdeeds]
      exact .nil
    · simp [hdeeds, appended]
    · simp [hdeeds, appended]
    · simp [hdeeds, husers, appended]
    · rw [hpc]
      trivial
  · intro s conn addr _ hs hnew
    have hσ : s.shared.Sound := hs.inv
    refine ⟨⟨?_, ?_, hσ.made, hσ.ids, hσ.registry⟩, fun c => ⟨?_, List.Subset.refl _, fun hd => ?_,
      fun _ e he _ => he⟩⟩
    · unfold accept
      rw [List.map_append]
      refine hσ.conns.append (List.nodup_singleton _) ?_
      intro c hc hc'
      obtain ⟨p, hp, rfl⟩ := List.mem_map.mp hc
      exact hnew p hp (by simpa using hc')
    · exact hσ.warranted.mono fun pre d hd => hd.mono (List.subset_append_left _ _)
    · exact List.subset_append_left _ _
    · unfold Shared.Distinct at hd ⊢
      unfold accept at hd
      rw [List.map_append] at hd
      exact hd.of_append_left
  · intro s conn addr a pc _ hs hmem hmoves
    have hσ : s.shared.Sound := hs.inv
    have ha := hmoves.warranted hσ hmem (hs.knows conn)
    refine ⟨hσ.after ha ?_, hmoves.knows hσ hmem (hs.knows conn), fun c hne => hσ.rely ha hne⟩
    rintro e rfl
    exact hmoves.id_eq
  · intro s conn hs
    have hσ : s.shared.Sound := hs.inv
    exact ⟨⟨hσ.conns, hσ.warranted, hσ.made, hσ.ids, hσ.registry⟩,
      fun c => ⟨List.Subset.refl _, List.Subset.refl _, id, fun _ e he _ => he⟩⟩

/-- **Whatever the order of their steps**, everything that the threads did was warranted, and the
list is what was appended and not removed. -/
theorem sound {s : Threads} (h : Reaches Initial cond Step s) : s.shared.Sound :=
  (obeyed_owning h).inv

/-! ## Distinct addresses -/

/-- The addresses stay distinct. -/
theorem distinct {s : Threads} (h : Reaches Initial DistinctAddress Step s) :
    s.shared.Distinct := by
  refine h.invariant (I := fun s => s.shared.Distinct) ?_ ?_
  · rintro s ⟨-, -, haccepted, -⟩
    unfold Shared.Distinct
    simp [haccepted]
  · intro s e s' hs hcond hst
    rcases hst.moves with ⟨conn, addr, rfl, rfl, -⟩ | ⟨conn, addr, a, pc, -, rfl, -⟩ | ⟨conn, rfl⟩
    · unfold Shared.Distinct accept
      rw [List.map_append]
      refine List.Nodup.append hs (List.nodup_singleton _) ?_
      intro x hx hx'
      obtain ⟨p, hp, rfl⟩ := List.mem_map.mp hx
      exact hcond p hp (by simpa using hx')
    · unfold Shared.Distinct go
      rw [Shared.accepted_after]
      exact hs
    · exact hs

/-- What names a sender was sent with the name of an entry with the address of the connection. -/
theorem calls_of_namesSender {accepted : List (Conn × Addr)} {ds : List Deed}
    {c dest : Conn} {body : Str}
    (h : Warranted accepted ds c (.sends dest body))
    (hname : ∃ n, NamesSender n (encode (ending body))) :
    ∃ s, Calls accepted ds c s ∧ NamesSender s (encode (ending body)) ∧ ∃ name,
    HasName ds dest name := by
  have hverb : (∃ t, body = Verb.fromUser ++ t) ∨ ∃ t, body = Verb.ot ++ t := by
    obtain ⟨n, ⟨msg, h⟩ | h⟩ := hname
    · exact .inl ⟨_, encode_ending_inj.mp h⟩
    · exact .inr ⟨_, encode_ending_inj.mp h⟩
  cases h with
  | relays msg hdest hs => exact ⟨_, hs, .inl ⟨msg, rfl⟩, _, hdest⟩
  | confirms hdest hs => exact ⟨_, hs, .inr rfl, _, hdest⟩
  | mai | motd | eyb | uoff =>
      simp [Verb.mai, Verb.motd, Verb.eyb, Verb.uoff, Verb.fromUser, Verb.ot] at hverb
  | replies hreply =>
      cases hreply <;> simp [Verb.u2em, Verb.utsil, Verb.edne, Verb.fromUser, Verb.ot] at hverb

/-- A name registered from the address of the connection is its own. -/
theorem hasName_of_calls {s : Threads} (h : Reaches Initial DistinctAddress Step s) {ds : List Deed}
    (hds : ds ⊆ s.shared.deeds) {c : Conn} {name : Str} (hc : Calls s.shared.accepted ds c name) :
    HasName ds c name := by
  obtain ⟨e, he, rfl⟩ := hc
  have hconn := (sound h).conn_of_matches (distinct h) (he.mono (List.Subset.refl _) hds)
  refine ⟨e, ?_, rfl⟩
  rw [← hconn]
  exact he.1

/-- A frame that names a sender has a name that the connection of the thread registered before, and
goes to a connection that had registered. -/
def Genuine (pre : List Deed) (d : Deed) : Prop :=
  ∀ dest body, d.act = .sends dest body → (∃ n, NamesSender n (encode (ending body))) →
    (∃ name, HasName pre d.conn name ∧ NamesSender name (encode (ending body))) ∧
      ∃ name, HasName pre dest name

/-- **Authentic senders, whatever the order** of the threads' steps. -/
theorem sendersGenuine {s : Threads} (h : Reaches Initial DistinctAddress Step s) :
    Backed Genuine s.shared.deeds := by
  rintro pre ⟨c, a⟩ post hds dest body rfl hnames
  have hpre : pre ⊆ s.shared.deeds := by
    rw [hds]
    exact List.subset_append_left _ _
  obtain ⟨name, hcalls, hnamed, hdest⟩ :=
    calls_of_namesSender ((sound h).warranted _ _ _ hds) hnames
  exact ⟨⟨name, hasName_of_calls h hpre hcalls, hnamed⟩, hdest⟩

/-- A relayed message is genuine. -/
theorem sendersGenuine_message : ∃ s :
    Threads, s.shared.world = message.world ∧ Backed Genuine s.shared.deeds := by
  obtain ⟨s, hs, hworld⟩ := exists_message
  exact ⟨s, hworld, sendersGenuine hs⟩

/-- The list is what was appended and not removed, in the order of the appends; an entry is removed,
and a connection closed, by the thread of that connection only; and what a thread is about to remove
is in the list. -/
structure Untouched (s : Threads) : Prop where
  registry : s.shared.users = (appended s.shared.deeds).filter (· ∉ removed s.shared.deeds)
  removes : ∀ c e, ⟨c, .removes e⟩ ∈ s.shared.deeds → e.user.conn = c
  closes : ∀ c dest, ⟨c, .closes dest⟩ ∈ s.shared.deeds → dest = c
  /-- So `list.remove` does not raise. -/
  present : ∀ c toRem, s.pc c = .remove toRem → toRem ∈ s.shared.users

/-- **Nobody touches what is not its own.** -/
theorem untouched {s : Threads} (h : Reaches Initial DistinctAddress Step s) : s.Untouched := by
  have hσ := sound h
  have hd := distinct h
  refine ⟨hσ.registry, fun c e he => ?_, fun c dest hclose => ?_, fun c toRem hpc => ?_⟩
  · exact hσ.conn_of_matches hd (hσ.matches_of_removes he)
  · obtain ⟨pre, hpre, hwarrant⟩ := hσ.warranted.of_mem hclose
    replace hwarrant : Warranted s.shared.accepted pre c (.closes dest) := hwarrant
    cases hwarrant with
    | closes he => exact hσ.conn_of_matches hd (he.mono (List.Subset.refl _) hpre)
    | closesUnknown => rfl
  · have hknows : (s.pc c).Knows c s.shared := (obeyed_owning h).knows c
    rw [hpc] at hknows
    exact hknows.2 hd

/-- The second of two clients has left. -/
private def farewell : Listener := Listener.twoClients.serve 1 1 Request.bye.render

/-- The entry of the client that leaves is removed, and its connection closed. -/
theorem untouched_farewell : ∃ s : Threads, s.shared.world.users = [⟨['a'], 0, 0⟩] ∧
    s.shared.isOpen 0 = true ∧ s.shared.isOpen 1 = false ∧ s.Untouched := by
  obtain ⟨s, hs, hworld, -⟩ :=
    of_listener_distinct (Listener.serve_request reaches_two_clients 1 1 .bye
    (show Request.bye.CRFree from trivial) trivial (by decide) rfl rfl)
  have hisOpen : s.shared.isOpen = farewell.world.isOpen := congrArg World.isOpen hworld
  refine ⟨s, by rw [hworld]; rfl, ?_, ?_, untouched hs⟩
  · rw [hisOpen]
    decide
  · rw [hisOpen]
    decide

/-! ## Entries of threads that have ended -/

/-- An entry of a connection whose thread has ended. -/
def Ghost (s : Threads) (e : Entry) : Prop := e ∈ s.shared.users ∧ (s.pc e.user.conn).Ended

/-- What the thread of one connection does leaves the ghosts of the others. -/
theorem Ghost.go {s : Threads} {e : Entry} (he : s.Ghost e) {conn : Conn}
    {addr : Addr} {a : Act} {pc : Pc} (hmoves : Pc.Moves conn addr s.shared (s.pc conn) a pc)
    (hremoves : ∀ e', a = .removes e' → e'.user.conn = conn) : (s.go conn a pc).Ghost e := by
  have hne : e.user.conn ≠ conn := by
    intro heq
    have hended := he.2
    rw [heq] at hended
    exact hmoves.not_ended hended
  refine ⟨Shared.mem_users_after he.1 ?_, ?_⟩
  · rintro e' ha rfl
    exact hne (hremoves e ha)
  · rw [go_pc_of_ne hne]
    exact he.2

/-- **Ghosts stay**: the entry of a thread that has ended is in the list for good. -/
theorem ghost_stays {s s' : Threads} (h : Reaches Initial DistinctAddress Step s) {e : Entry}
    (he : s.Ghost e) (h' : Reaches (· = s) DistinctAddress Step s') : s'.Ghost e := by
  have hboth : Reaches Initial DistinctAddress Step s' ∧ s'.Ghost e := by
    induction h' with
    | start heq =>
        rw [heq]
        exact ⟨h, he⟩
    | @step s₁ s₂ ev _ hcond hst ih =>
        obtain ⟨hreach, hghost⟩ := ih
        have hreach' := hreach.step hcond hst
        refine ⟨hreach', ?_⟩
        rcases hst.moves with ⟨conn, addr, -, rfl, -⟩ | ⟨conn, addr, a, pc, -, rfl,
          hmoves⟩ | ⟨conn, rfl⟩
        · exact hghost
        · refine hghost.go hmoves fun e' ha => ?_
          subst ha
          exact (untouched hreach').removes conn e' (Shared.mem_deeds_after _ _ _)
        · exact hghost
  exact hboth.2

/-- One of two clients closes its connection, and then the other one breaks. -/
theorem ghost_stays_closed : ∃ (s : Threads) (e : Entry), e.user.name = ['a'] ∧ s.Ghost e ∧
    (s.sever 1).Ghost e := by
  obtain ⟨s, hs, hworld, -, hpc⟩ := of_listener_distinct (.step reaches_two_clients
    (show Listener.twoClients.DistinctAddress (.receives 0 []) from trivial)
    (.receives (show (0, 0) ∈ Listener.twoClients.accepted by decide) rfl))
  have husers : s.shared.users.map Entry.user = [⟨['a'], 0, 0⟩, ⟨['b'], 1, 1⟩] :=
    congrArg World.users hworld
  have hmem : (⟨['a'], 0, 0⟩ : User) ∈ s.shared.users.map Entry.user := by
    rw [husers]
    exact List.mem_cons_self
  obtain ⟨e, he, huser⟩ := List.mem_map.mp hmem
  have hghost : s.Ghost e := by
    refine ⟨he, ?_⟩
    rw [huser, hpc]
    trivial
  have hbreaks : s.DistinctAddress (.breaks 1) := trivial
  exact ⟨s, e, by rw [huser], hghost, ghost_stays hs hghost (.step (.start rfl) hbreaks .breaks)⟩

end Threads

end ME2U.Server
