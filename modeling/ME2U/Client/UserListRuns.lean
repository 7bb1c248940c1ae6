import ME2U.Client.UserList
import ME2U.Client.Windows

/-!
# The user list over a run

Messages are handled, and windows are closed between them. The list that the two pointers lead to
stays a list, no user comes twice, and nobody is lost.

* `Heap.WellLinked`: what the pointers lead to is a doubly linked list.
* `ListRun.wellBuilt`: it is, after every run; its names are the first words of the texts, each
  once.
* `Heap.Represents.processMsg`, `Heap.Represents.sigchild`: the functions on addresses do what those
  on the list of users do.
-/

namespace ME2U.Client

/-! ## What the pointers lead to -/

namespace Heap

/-- **A doubly linked list**: finite, without a node that comes twice, with `prev` the inverse of
`next`. -/
structure WellLinked (h : Heap) (as : List ℕ) : Prop where
  head : h.userListHead = as.head?
  along : ∀ i a, as[i]? = some a → ∃ n, h.nodes a = some n ∧ n.next = as[i + 1]?
  acyclic : as.Nodup
  null : h.userListHead = none ↔ h.userListTail = none
  last : ∀ a, h.userListTail = some a → as.getLast? = some a ∧ ∃ n,
    h.nodes a = some n ∧ n.next = none
  first : ∀ a, h.userListHead = some a → ∃ n, h.nodes a = some n ∧ n.prev = none
  inverse : ∀ a ∈ as, ∀ b ∈ as, ∀ n n', h.nodes a = some n → h.nodes b = some n' →
    (n.next = some b ↔ n'.prev = some a)

/-- The user of the entry at an address. -/
def userAt (h : Heap) (a : ℕ) : Option UserStruct :=
  (h.nodes a).bind fun n => n.currUser.bind h.structs

namespace Holds

variable {h : Heap} {es : List Entry} (hh : h.Holds es)
include hh

/-- The user of an entry is at its node. -/
theorem userAt {e : Entry} (he : e ∈ es) : h.userAt e.node = some e.user := by
  obtain ⟨n, hn, husr, -⟩ := hh.nodes e he
  unfold Heap.userAt
  rw [hn, Option.bind_some, husr, Option.bind_some, hh.structs e he]

/-- **The pointers lead to the list that the memory holds.** -/
theorem wellLinked : h.WellLinked (es.map Entry.node) where
  head := hh.linked.head
  along := by
    intro i a ha
    obtain ⟨n, hn, hnext, -⟩ := hh.linked.at ha
    exact ⟨n, hn, hnext⟩
  acyclic := hh.linked.nodup
  null := by
    rw [hh.linked.head, hh.tail, List.head?_eq_none_iff, List.getLast?_eq_none_iff]
  last := by
    intro a ha
    rw [hh.tail] at ha
    refine ⟨ha, ?_⟩
    rw [List.getLast?_eq_getElem?] at ha
    obtain ⟨n, hn, hnext, -⟩ := hh.linked.at ha
    refine ⟨n, hn, hnext.trans (List.getElem?_eq_none ?_)⟩
    omega
  first := by
    intro a ha
    rw [hh.linked.head, List.head?_eq_getElem?] at ha
    obtain ⟨n, hn, -, hprev⟩ := hh.linked.at ha
    exact ⟨n, hn, hprev⟩
  inverse := by
    intro a ha b hb n n' hn hn'
    exact hh.linked.next_iff_prev ha hb hn hn'

end Holds

end Heap

/-! ## Runs -/

/-- A run in which messages are handled and windows are closed. -/
structure ListRun where
  heap : Heap
  /-- The texts that `process_msg` was called with. -/
  texts : List Bytes

/-- What happens in a run. -/
inductive ListEvent
  /-- A call of `process_msg`, with a text and what is in memory behind it. -/
  | message (s : Heap.Started) (text : Bytes) (rest : Block)
  /-- A closed window, with the id that `waitpid` returns. -/
  | sigchild (pid : ℕ)

/-- The steps of a run; the functions may end in whatever way. -/
def ListRun.Step (r : ListRun) : ListEvent → ListRun → Prop
  | .message s text rest, r' =>
      s.Fresh r.heap ∧ 0 ∉ text ∧ r'.texts = r.texts ++ [text] ∧
        ∃ out, Eff.Settles (Heap.processMsg s (cells text ++ some 0 :: rest)) r.heap (out, r'.heap)
  | .sigchild pid, r' =>
      r'.texts = r.texts ∧ ∃ out, Eff.Settles (Heap.sigchild pid) r.heap (out, r'.heap)

/-- The start, with an empty list. -/
def ListRun.Initial (r : ListRun) : Prop :=
  r.heap.userListHead = none ∧ r.heap.userListTail = none ∧ r.texts = []

/-- The states that the runs reach. -/
abbrev ListRun.Reached : ListRun → Prop := Reachable ListRun.Initial ListRun.Step

/-- **The list after a run**, with the addresses of its entries. -/
structure ListRun.WellBuilt (r : ListRun) (as : List ℕ) : Prop where
  linked : r.heap.WellLinked as
  /-- Every entry has a user. -/
  users : ∀ a ∈ as, ∃ u, r.heap.userAt a = some u
  /-- The names are the first words of the texts, in the order in which they came first. -/
  names : as.map (fun a => (r.heap.userAt a).map UserStruct.username) =
    ((r.texts.map firstWord).eraseDups).map some
  /-- No name comes twice. -/
  distinct : (as.map fun a => (r.heap.userAt a).map UserStruct.username).Nodup
  /-- `find_user` returns the user of each name. -/
  found : ∀ a ∈ as, ∀ u, r.heap.userAt a = some u → ∃ n, r.heap.nodes a = some n ∧
    Eff.Settles (Heap.findUser u.username) r.heap (.ok n.currUser, r.heap)
  /-- It returns `NULL` for every other name. -/
  notFound : ∀ name, name ∉ r.texts.map firstWord →
    Eff.Settles (Heap.findUser name) r.heap (.ok none, r.heap)

/-! ## The invariant -/

/-- A further name is at the end of the list, or in it already. -/
theorem eraseDups_concat (l : List Bytes) (w : Bytes) :
    (l ++ [w]).eraseDups = if w ∈ l.eraseDups then l.eraseDups else l.eraseDups ++ [w] := by
  rw [List.eraseDups_append]
  by_cases hmem : w ∈ l
  · have hnone : [w].removeAll l = [] := by simp [List.removeAll, hmem]
    rw [if_pos (List.mem_eraseDups.mpr hmem), hnone, List.eraseDups_nil, List.append_nil]
  · have hself : [w].removeAll l = [w] := by simp [List.removeAll, hmem]
    rw [if_neg (fun h => hmem (List.mem_eraseDups.mp h)), hself]
    rfl

/-- Every name is in it once. -/
theorem nodup_eraseDups (l : List Bytes) : l.eraseDups.Nodup := by
  induction l using List.reverseRecOn with
  | nil => exact List.nodup_nil
  | append_singleton l w ih =>
      rw [eraseDups_concat]
      split_ifs with hmem
      · exact ih
      · exact List.nodup_append.mpr ⟨ih, List.nodup_singleton w, fun a ha b hb heq =>
          hmem (List.mem_singleton.mp hb ▸ heq ▸ ha)⟩

/-- The names when a message has been handled. -/
theorem Heap.names_added (s : Heap.Started) (w : Bytes) (es : List Heap.Entry) :
    Heap.names (Heap.added s w es) = if w ∈ Heap.names es then Heap.names es else Heap.names es ++
      [w] := by
  unfold Heap.added
  split_ifs
  · rfl
  · simp [Heap.names, Heap.Started.entry]

/-- What holds in a run: the memory holds a list, of the names that came. -/
structure ListRun.Holds (r : ListRun) (es : List Heap.Entry) : Prop where
  heap : r.heap.Holds es
  names : Heap.names es = (r.texts.map firstWord).eraseDups

namespace ListRun.Holds

variable {r r' : ListRun} {es : List Heap.Entry} (hr : r.Holds es)
include hr

/-- **A message.** -/
theorem message {s : Heap.Started} {text : Bytes} {rest : Block}
    (hst : r.Step (.message s text rest) r') : r'.Holds (Heap.added s (firstWord text) es) := by
  obtain ⟨hfresh, -, htexts, out, hout⟩ := hst
  obtain ⟨c, q, hc, hmsg⟩ := exists_cells_eq text rest
  obtain ⟨h₁, e, hh₁, -, -, hrun⟩ := hr.heap.processMsg hfresh (isWord_firstWord text) hc q
  rw [hmsg] at hout
  have hstate := congrArg Prod.snd (hout.unique hrun)
  refine ⟨?_, ?_⟩
  · cases htext : cstr q with
    | ok t =>
        rw [htext] at hstate
        rw [show r'.heap = _ from hstate]
        exact hh₁.withWrote _
    | error f =>
        rw [htext] at hstate
        rw [show r'.heap = _ from hstate]
        exact hh₁
  · rw [Heap.names_added, htexts, List.map_append, List.map_singleton, eraseDups_concat, hr.names]

/-- **A closed window.** -/
theorem sigchild {pid : ℕ} (hst : r.Step (.sigchild pid) r') : ∃ es', r'.Holds es' := by
  obtain ⟨htexts, out, hout⟩ := hst
  have hstate := congrArg Prod.snd (hout.unique (hr.heap.sigchild pid))
  cases hfind : es.find? (·.pid == pid) with
  | none =>
      rw [hfind] at hstate
      have hsame : r'.heap = r.heap := hstate
      exact ⟨es, by rw [hsame]; exact hr.heap, by rw [htexts]; exact hr.names⟩
  | some e =>
      rw [hfind] at hstate
      have hset : r'.heap = r.heap.setUser e.usr { e.user with active := false } := hstate
      refine ⟨es.map (Heap.Entry.withUser e.usr { e.user with active := false }), ?_, ?_⟩
      · rw [hset]
        exact hr.heap.setUser _ _
      · rw [htexts, ← hr.names]
        unfold Heap.names
        rw [List.map_map]
        apply List.map_congr_left
        intro e' he'
        dsimp only [Function.comp, Heap.Entry.withUser]
        split_ifs with heq
        · have hself := hr.heap.structs e' he'
          rw [heq, hr.heap.structs e (List.mem_of_find?_eq_some hfind)] at hself
          rw [← Option.some.inj hself]
        · rfl

/-- The names that are read from memory. -/
theorem map_username : (es.map Heap.Entry.node).map
    (fun a => (r.heap.userAt a).map UserStruct.username) = (Heap.names es).map some := by
  unfold Heap.names
  rw [List.map_map, List.map_map]
  apply List.map_congr_left
  intro e he
  dsimp only [Function.comp]
  rw [hr.heap.userAt he]
  rfl

/-- What the list is like where this holds. -/
theorem built : r.WellBuilt (es.map Heap.Entry.node) where
  linked := hr.heap.wellLinked
  users := by
    intro a ha
    obtain ⟨e, he, rfl⟩ := List.mem_map.mp ha
    exact ⟨e.user, hr.heap.userAt he⟩
  names := by
    rw [hr.map_username, hr.names]
  distinct := by
    rw [hr.map_username, hr.names]
    exact (nodup_eraseDups _).map fun _ _ => Option.some.inj
  found := by
    intro a ha u hu
    obtain ⟨e, he, rfl⟩ := List.mem_map.mp ha
    obtain ⟨n, hn, husr, -⟩ := hr.heap.nodes e he
    obtain rfl := Option.some.inj (hu.symm.trans (hr.heap.userAt he))
    refine ⟨n, hn, es.length, fun fuel hfuel => ?_⟩
    rw [hr.heap.findUser _ hfuel, husr]
    cases hfind : es.find? (·.user.username == e.user.username) with
    | none =>
        exact absurd (List.mem_map_of_mem he) (Heap.find?_username_eq_none_iff.mp hfind)
    | some e' =>
        have hnodup : (Heap.names es).Nodup := by
          rw [hr.names]
          exact nodup_eraseDups _
        have hname : e'.user.username = e.user.username := by simpa using List.find?_some hfind
        obtain rfl := List.inj_on_of_nodup_map hnodup (List.mem_of_find?_eq_some hfind) he hname
        rfl
  notFound := by
    intro name hname
    refine ⟨es.length, fun fuel hfuel => ?_⟩
    have hnone : es.find? (·.user.username == name) = none := by
      rw [Heap.find?_username_eq_none_iff, hr.names, List.mem_eraseDups]
      exact hname
    rw [hr.heap.findUser _ hfuel, hnone]
    rfl

/-- A message is handled, and the search takes no more steps than there are entries. -/
theorem step_run {s : Heap.Started} (hs : s.Fresh r.heap) {text : Bytes}
    (h0 : 0 ∉ text) (rest : Block)
    {fuel : ℕ} (hfuel : es.length ≤ fuel) : r.Step (.message s text rest)
      ⟨((Heap.processMsg s (cells text ++ some 0 :: rest) fuel).run r.heap).2,
        r.texts ++ [text]⟩ := by
  obtain ⟨c, q, hc, hmsg⟩ := exists_cells_eq text rest
  refine ⟨hs, h0, rfl, ((Heap.processMsg s (cells text ++ some 0 :: rest) fuel).run r.heap).1,
    es.length, fun fuel' hfuel' => ?_⟩
  rw [hmsg, hr.heap.run_processMsg s (isWord_firstWord text) hc q hfuel',
    hr.heap.run_processMsg s (isWord_firstWord text) hc q hfuel]

/-- A message can be handled. -/
theorem exists_message {s : Heap.Started} (hs : s.Fresh r.heap) {text : Bytes} (h0 : 0 ∉ text)
    (rest : Block) : ∃ r', r.Step (.message s text rest) r' :=
  ⟨_, hr.step_run hs h0 rest le_rfl⟩

end ListRun.Holds

/-- At the start the list is empty. -/
theorem ListRun.Initial.holds {r : ListRun} (h : r.Initial) : r.Holds [] := by
  obtain ⟨hhead, htail, htexts⟩ := h
  refine ⟨⟨hhead, htail, ?_, ?_, List.nodup_nil⟩, ?_⟩
  · intro e he
    cases he
  · intro e he
    cases he
  · rw [htexts]
    rfl

/-- **What holds in every run.** -/
theorem ListRun.Reached.holds {r : ListRun} (h : ListRun.Reached r) : ∃ es, r.Holds es := by
  apply h.invariant (I := fun r => ∃ es, r.Holds es)
  · exact fun _ hinit => ⟨[], hinit.holds⟩
  · intro r e r' ⟨es, hr⟩ _ hst
    cases e with
    | message s text rest => exact ⟨_, hr.message hst⟩
    | sigchild pid => exact hr.sigchild hst

/-- A step that leaves the users alone but for the one of a name. -/
def ListRun.LeavesOthers (r r' : ListRun) (as : List ℕ) (w : Bytes) : Prop :=
  ∀ a ∈ as, ∀ n u, r.heap.nodes a = some n → r.heap.userAt a = some u → u.username ≠ w →
    ∃ n' u', r'.heap.nodes a = some n' ∧ n'.currUser = n.currUser ∧ r'.heap.userAt a = some u' ∧
      u'.username = u.username ∧ u'.rd = u.rd ∧ u'.wrt = u.wrt

/-- **The user list**: after every run of messages and closed windows the pointers lead to a doubly
linked list, with the first words of the texts as its names; every message can be handled, and
leaves the users of other names alone. -/
theorem ListRun.wellBuilt {r : ListRun} (h : ListRun.Reached r) : ∃ as, r.WellBuilt as ∧
    (∀ (s : Heap.Started) text rest, s.Fresh r.heap → 0 ∉ text →
      ∃ r', r.Step (.message s text rest) r') ∧
    ∀ s text rest r', r.Step (.message s text rest) r' → r.LeavesOthers r' as (firstWord text) := by
  obtain ⟨es, hr⟩ := h.holds
  refine ⟨_, hr.built, fun s text rest hs h0 => hr.exists_message hs h0 rest, ?_⟩
  intro s text rest r' hst a ha n u hn hu _
  have hr' := hr.message hst
  obtain ⟨e, he, rfl⟩ := List.mem_map.mp ha
  have he' : e ∈ Heap.added s (firstWord text) es := by
    unfold Heap.added
    split_ifs
    · exact he
    · exact List.mem_append_left _ he
  obtain ⟨n', hn', husr, -⟩ := hr'.heap.nodes e he'
  obtain rfl := Option.some.inj (hu.symm.trans (hr.heap.userAt he))
  exact ⟨n', e.user, hn', husr.trans (hr.heap.eq_of_node he hn).1.symm,
    hr'.heap.userAt he', rfl, rfl, rfl⟩

/-- A memory without users. -/
private def blankHeap : Heap := ⟨fun _ => none, fun _ => none, none, none, []⟩

/-- A message has been handled, in a list of three entries at most. -/
private def ListRun.withMessage (r : ListRun) (s : Heap.Started) (text : Bytes) : ListRun :=
  ⟨((Heap.processMsg s (cells text ++ [some 0]) 3).run r.heap).2, r.texts ++ [text]⟩

/-- `a`, then `b`, then `a` again have written. -/
private def repeated : ListRun :=
  (((⟨blankHeap, []⟩ : ListRun).withMessage ⟨1, 2, 4, 5, 9⟩ [97, 32, 104]).withMessage ⟨11, 12, 6,
    7, 10⟩ [98, 32, 105]).withMessage ⟨21, 22, 8, 9, 11⟩ [97, 32, 106]

/-- The list of the two that have written. -/
theorem ListRun.wellBuilt_repeat : ∃ as, ListRun.Reached repeated ∧ repeated.WellBuilt as ∧
    as.length = 2 := by
  have h₀ : ListRun.Initial ⟨blankHeap, []⟩ := ⟨rfl, rfl, rfl⟩
  have h₁ := h₀.holds.step_run (s := ⟨1, 2, 4, 5, 9⟩) ⟨rfl, rfl⟩
    (show 0 ∉ [97, 32, 104] by decide) []
    (show _ ≤ 3 by simp)
  have hr₁ := h₀.holds.message h₁
  have h₂ := hr₁.step_run (s := ⟨11, 12, 6, 7, 10⟩) ⟨rfl, rfl⟩ (show 0 ∉ [98, 32, 105] by decide) []
    (show _ ≤ 3 by decide)
  have hr₂ := hr₁.message h₂
  have h₃ := hr₂.step_run (s := ⟨21, 22, 8, 9, 11⟩) ⟨rfl, rfl⟩ (show 0 ∉ [97, 32, 106] by decide) []
    (show _ ≤ 3 by decide)
  have hreached : ListRun.Reached repeated := .next (.next (.next (.start h₀) h₁) h₂) h₃
  obtain ⟨as, hbuilt, -⟩ := ListRun.wellBuilt hreached
  have hlength := congrArg List.length hbuilt.names
  rw [List.length_map, List.length_map] at hlength
  exact ⟨as, hreached, hbuilt, hlength.trans (by decide)⟩

/-! ## The list of users -/

/-- The element at the end of the prefix is modified. -/
theorem modify_append_cons {α : Type} (f : α → α) (l : List α) (a : α) (l' : List α) :
    (l ++ a :: l').modify l.length f = l ++ f a :: l' := by
  induction l with
  | nil => rfl
  | cons b l ih => simp [ih]

namespace Heap

/-- The memory of a client: the users of the entries are its users, and their ids those of the
windows. -/
structure Represents (h : Heap) (es : List Entry) (c : Process) (pids : List ℕ) : Prop where
  holds : h.Holds es
  users : es.map Entry.user = c.users
  pids : es.map Entry.pid = pids
  wrote : h.wrote = c.wrote

namespace Represents

variable {h : Heap} {es : List Entry} {c : Process} {pids : List ℕ} (hr : h.Represents es c pids)
include hr

/-- The names of the heap and those of the model are the same. -/
theorem mem_names_iff (w : Bytes) : w ∈ names es ↔ w ∈ c.users.map UserStruct.username := by
  unfold names
  rw [← hr.users, List.map_map]
  rfl

/-- The users when a message has been handled. -/
theorem map_user_added {s : Started} (hrd : s.rd = c.nextFd)
    (hwrt : s.wrt = c.nextFd + 1) (w : Bytes) :
    (added s w es).map Entry.user = (c.withUser w).users ∧
      (added s w es).map Entry.pid =
        pids ++ ((c.withUser w).users.drop c.users.length).map fun _ => s.childpid := by
  have hiff : w ∈ names es ↔ c.users.any (·.username == w) = true := by
    rw [hr.mem_names_iff, List.mem_map, List.any_eq_true]
    simp
  unfold added Process.withUser
  by_cases hmem : w ∈ names es
  · rw [if_pos hmem, if_pos (hiff.mp hmem), hr.users, hr.pids, List.drop_length]
    exact ⟨rfl, (List.append_nil _).symm⟩
  · rw [if_neg hmem, if_neg (mt hiff.mpr hmem), List.map_append, List.map_append, hr.users, hr.pids]
    simp [Started.entry, Process.addUser, hrd, hwrt]

/-- **`process_msg` on addresses** does what it does on the list of users. -/
theorem processMsg (hc : ∀ u ∈ c.users, 0 ∉ u.username) {slack : Slack}
    (hslack : ∀ blk, slack blk ≠ 0) {s : Started}
    (hs : s.Fresh h) (hrd : s.rd = c.nextFd) (hwrt : s.wrt = c.nextFd + 1) (msg : Block) :
    ∃ h' es', Eff.Settles (Heap.processMsg s msg) h
        (((Client.processMsg slack msg).run c).1, h') ∧
      h'.Represents es' ((Client.processMsg slack msg).run c).2
        (pids ++ (((Client.processMsg slack msg).run c).2.users.drop c.users.length).map
          fun _ => s.childpid) := by
  cases hn : wordLength msg with
  | error f =>
      have hrun : (Client.processMsg slack msg).run c = (.error (.fault f), c) := by
        unfold Client.processMsg
        rw [hn]
        rfl
      rw [hrun]
      refine ⟨h, es, ⟨0, fun fuel _ => ?_⟩, hr.holds, hr.users, ?_, hr.wrote⟩
      · unfold Heap.processMsg
        rw [hn]
        rfl
      · rw [hr.pids, List.drop_length]
        exact (List.append_nil _).symm
  | ok n =>
      obtain ⟨w, b, q, rfl, hw, hb, rfl⟩ := exists_of_wordLength hn
      obtain ⟨husers, hpids⟩ := hr.map_user_added hrd hwrt w
      obtain ⟨u, hu, hrun⟩ := run_processMsg_cells hc hw hb q (not_overread hslack _ _)
      obtain ⟨h₁, e, hh₁, hwrote, he, hsettles⟩ := hr.holds.processMsg hs hw hb q
      have heu : e.user = u := by
        have hmap : (c.withUser w).users.find? (·.username == w) =
            ((added s w es).find? (·.user.username == w)).map Entry.user := by
          rw [← husers, List.find?_map]
          rfl
        rw [hu, he] at hmap
        exact (Option.some.inj hmap).symm
      rw [hrun]
      cases htext : cstr q with
      | ok t =>
          rw [htext] at hsettles
          refine ⟨_, _, hsettles, hh₁.withWrote _, husers, hpids, ?_⟩
          show h₁.wrote ++ _ = c.wrote ++ _
          rw [hwrote, hr.wrote, heu]
      | error f =>
          rw [htext] at hsettles
          exact ⟨h₁, _, hsettles, hh₁, husers, hpids,
            hwrote.trans (hr.wrote.trans (c.wrote_withUser w).symm)⟩

omit hr in
/-- The entry at an index of the list, and its user. -/
theorem entry {pre post : List Entry} {e : Entry} (hr : h.Represents (pre ++ e :: post) c pids) :
    c.users[pre.length]? = some e.user ∧ h.structs e.usr = some e.user ∧ ∃ n,
    h.nodes e.node = some n ∧
      n.currUser = some e.usr ∧ n.next = (post.map Entry.node).head? := by
  have he : e ∈ pre ++ e :: post := List.mem_append_right _ List.mem_cons_self
  obtain ⟨n, hn, husr, -⟩ := hr.holds.nodes e he
  have hat : ((pre ++ e :: post).map Entry.node)[pre.length]? = some e.node := by simp
  obtain ⟨n', hn', hnext, -⟩ := hr.holds.linked.at hat
  obtain rfl := Option.some.inj (hn.symm.trans hn')
  refine ⟨?_, hr.holds.structs e he, n, hn, husr, ?_⟩
  · rw [← hr.users]
    simp
  · rw [hnext, List.head?_eq_getElem?, List.map_append, List.map_cons]
    simp [List.getElem?_append_right]

omit hr in
/-- A user that is made inactive. -/
theorem deactivate {pre post : List Entry} {e : Entry}
    (hr : h.Represents (pre ++ e :: post) c pids) :
    (h.setUser e.usr { e.user with active := false }).Represents
      (pre ++ { e with user := { e.user with active := false } } :: post)
      (Client.deactivate pre.length c) pids where
  holds := hr.holds.setEntryUser _
  users := by
    have hlength : pre.length = (pre.map Entry.user).length := (List.length_map _).symm
    unfold Client.deactivate
    rw [← hr.users, List.map_append, List.map_cons, List.map_append, List.map_cons, hlength,
      modify_append_cons]
  pids := by
    rw [← hr.pids]
    simp
  wrote := hr.wrote

/-- **A closed window on addresses** is one in the list of users. -/
theorem sigchild (pid : ℕ) : match Client.findUserPid pids pid with
    | some i => ∃ h' es', Eff.Settles (Heap.sigchild pid) h (.ok (), h') ∧
        h'.Represents es' (Client.deactivate i c) pids
    | none => Eff.Settles (Heap.sigchild pid) h (.error (.fault .nullPointer), h) := by
  have hsettles := hr.holds.sigchild pid
  have hidx : Client.findUserPid pids pid = es.findIdx? (·.pid == pid) := by
    unfold Client.findUserPid
    rw [← hr.pids, List.findIdx?_map]
    rfl
  rw [List.find?_eq_bind_findIdx?_getElem?] at hsettles
  rw [hidx]
  cases hfind : es.findIdx? (·.pid == pid) with
  | none =>
      rw [hfind, Option.bind_none] at hsettles
      exact hsettles
  | some i =>
      obtain ⟨hi, -, -⟩ := List.findIdx?_eq_some_iff_getElem.mp hfind
      rw [hfind, Option.bind_some, List.getElem?_eq_getElem hi] at hsettles
      have hsplit : es = es.take i ++ es[i] :: es.drop (i + 1) := by
        rw [List.getElem_cons_drop, List.take_append_drop]
      have hlength : (es.take i).length = i := List.length_take_of_le hi.le
      have hdeactivate := deactivate (hsplit ▸ hr)
      rw [hlength] at hdeactivate
      exact ⟨_, _, hsettles, hdeactivate⟩

end Represents

end Heap

end ME2U.Client
