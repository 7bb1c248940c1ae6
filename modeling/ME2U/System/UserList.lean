import ME2U.Client.Frames
import ME2U.Server.Requests

/-!
# The list of users, from the registry to the screen

The server answers `LISTU` with the names of the registry, each with a space before it. The client
takes the frame together from its reads, and prints the tokens of what is behind the verb.

* `run_serverFrame_listReply`: the frame prints the names.
* `listReply_printed_iff`: it does so from any reads, iff the frame fits the client's block.
-/

namespace ME2U.System

open Client
open Server (User getUsers)

/-- The frame that answers `LISTU`. -/
def listReply (users : List User) : Bytes :=
  encode (Server.ending (Verb.utsil ++ ' ' :: getUsers users))

/-- The server sends the frame as the one reply. -/
theorem run_dispatch_listu {conn : Server.Conn} {w : Server.World} (hopen : w.isOpen conn = true)
    (addr : Server.Addr) :
    (Server.dispatch conn addr Request.listu.render).run w =
      (.ok .again, w.logged conn (listReply w.users)) := by
  rw [Server.dispatch_listu, Eff.run_get_bind, Server.run_send_bind_of_isOpen hopen]
  rfl

/-- A name that the list can carry. -/
def Listable (name : Str) : Prop := name ≠ [] ∧ ' ' ∉ name ∧ '\r' ∉ name ∧ '\x00' ∉ name

instance (name : Str) : Decidable (Listable name) := inferInstanceAs (Decidable (_ ∧ _))

/-- What is behind the verb: the names, each with a space before it. -/
def listed (users : List User) : Bytes := (users.map fun u => encode u.name).flatMap (32 :: ·)

/-- The list of the server in bytes. -/
theorem encode_getUsers (users : List User) : encode (getUsers users) = listed users := by
  rw [Server.getUsers_eq_flatMap, listed]
  induction users with
  | nil => rfl
  | cons u users ih =>
      rw [List.flatMap_cons, encode_append, ih, List.map_cons, List.flatMap_cons]
      rfl

/-- The reply is the verb, the list and the ending. -/
theorem listReply_eq (users : List User) :
    listReply users = serverListUser ++ 32 :: listed users ++ Client.ending := by
  unfold listReply
  rw [Server.ending, encode_append, encode_append, ← encode_getUsers, ending_eq]
  rfl

/-- A character of the list, the blank apart, is one of a name. -/
theorem notMem_getUsers {users : List User} {c : Char} (hc : c ≠ ' ')
    (h : ∀ u ∈ users, c ∉ u.name) : c ∉ getUsers users := by
  rw [Server.getUsers_eq_flatMap]
  simp only [List.mem_flatMap, List.mem_cons, not_exists, not_and, not_or]
  exact fun u hu => ⟨hc, h u hu⟩

section Names

variable {users : List User} (hnames : ∀ u ∈ users, Listable u.name)
include hnames

/-- There is no NUL in it. -/
theorem zero_notMem_listed : 0 ∉ listed users := by
  rw [← encode_getUsers]
  have hfree : '\x00' ∉ getUsers users := by
    apply notMem_getUsers (by decide)
    intro u hu
    exact (hnames u hu).2.2.2
  exact mt zero_mem_encode.mp hfree

/-- The reply ends once: no name holds a carriage return. -/
theorem endsOnce_listReply :
    EndsOnce Client.ending (serverListUser ++ 32 :: listed users ++ Client.ending) := by
  apply endsOnce_append_of_notMem
  have hfree : '\r' ∉ getUsers users := by
    apply notMem_getUsers (by decide)
    intro u hu
    exact (hnames u hu).2.2.1
  rw [← encode_getUsers]
  simp only [List.mem_append, List.mem_cons, not_or]
  exact ⟨by decide, by decide, mt cr_mem_encode.mp hfree⟩

/-- The tokens of the list are the names. -/
theorem strtok_listed : strtok 32 (listed users) = users.map fun u => encode u.name := by
  apply strtok_flatMap
  intro w hw
  obtain ⟨u, hu, rfl⟩ := List.mem_map.mp hw
  obtain ⟨hne, hspace, -, -⟩ := hnames u hu
  exact ⟨mt encode_eq_nil.mp hne, mt space_mem_encode.mp hspace⟩

end Names

/-- The names on the screen, one a line. -/
def lines (users : List User) : List (Fd × Bytes) :=
  users.flatMap fun u => [(.stdout, encode u.name), (.stdout, [10])]

/-- Every name is printed with a newline. -/
theorem run_writeLines (ws : List Bytes) (c : Process) :
    (writeLines ws).run c =
      (.ok (), { c with wrote := c.wrote ++ ws.flatMap fun w => [(.stdout, w),
        (.stdout, [10])] }) := by
  induction ws generalizing c with
  | nil => simp [writeLines]
  | cons w ws ih => simp [writeLines, ih]

/-- **The frame prints the names.** -/
theorem run_serverFrame_listReply (slack : Slack) {users : List User}
    (hnames : ∀ u ∈ users, Listable u.name) (c : Process) :
    (serverFrame slack (textBlock (serverListUser ++ 32 :: listed users) 4)).run c =
      (.ok .again, { c with wrote := c.wrote ++ lines users }) := by
  have hcstr : cstr (textBlock (listed users) 4) = .ok (listed users) :=
    cstr_textBlock (zero_notMem_listed hnames) (by decide)
  have hlist : (listUsers (textBlock (listed users) 4)).run c =
      (.ok (), { c with wrote := c.wrote ++ lines users }) := by
    unfold listUsers
    rw [hcstr, run_mem_ok_bind, strtok_listed hnames, run_writeLines, List.flatMap_map,
      lines]
  rw [run_serverFrame_utsil, Eff.run_bind_ok hlist, Eff.run_pure]

/-- The reads print the names when the last one is in, and nothing before. -/
def Printed (slack : Slack) (users : List User) (reads : List Bytes) (c : Process) : Prop :=
  (∃ c₁, (chatReads slack reads.dropLast).run c = (.ok (), c₁) ∧ c₁.wrote = c.wrote) ∧
    ∃ c₂, (chatReads slack reads).run c = (.ok (), c₂) ∧ c₂.wrote = c.wrote ++ lines users

/-- A reply that does not fit the buffer is not printed. -/
theorem length_lt_of_printed {slack : Slack} {users : List User} {reads : List Bytes} {c : Process}
    (hnames : ∀ u ∈ users, Listable u.name) (hreads : CutInto (listReply users) reads)
    (hempty : c.buf = .of []) (h : Printed slack users reads c) :
    (listReply users).length < bufLimit := by
  have hc : c = c.withBuf (.of []) := by rw [← hempty]; rfl
  have h0 : 0 ∉ serverListUser ++ 32 :: listed users :=
    zero_notMem_words (by decide) (zero_notMem_listed hnames)
  rw [listReply_eq] at hreads ⊢
  obtain ⟨-, c₂, hrun, -⟩ := h
  by_contra hlong
  obtain ⟨e, s, hstop⟩ :=
    hreads.run_chatReads_of_not slack h0 (endsOnce_listReply hnames) (fun h => hlong h.2) c
  rw [← hc, hrun] at hstop
  cases hstop

/-- **From the registry to the screen**: for every registry of listable names and every way the
reply is cut into reads, the first of four bytes or more, the client prints the names in order when
the last read is in, and nothing before, iff the reply is shorter than `bufLimit`. -/
theorem listReply_printed_iff (slack : Slack) (users : List User) (reads : List Bytes) (c : Process)
    (hnames : ∀ u ∈ users, Listable u.name) (hreads : CutInto (listReply users) reads)
    (hfirst : ∀ b ∈ reads.head?, 4 ≤ b.length) (hempty : c.buf = .of []) :
    Printed slack users reads c ↔ (listReply users).length < bufLimit := by
  constructor
  · exact length_lt_of_printed hnames hreads hempty
  · intro hlen
    have hc : c = c.withBuf (.of []) := by rw [← hempty]; rfl
    have h0 : 0 ∉ serverListUser ++ 32 :: listed users :=
      zero_notMem_words (by decide) (zero_notMem_listed hnames)
    have honce := endsOnce_listReply hnames
    rw [listReply_eq] at hreads hlen
    have hbuf := And.intro hfirst hlen
    have hbefore := hreads.run_chatReads_dropLast slack h0 honce hbuf c
    have hrun := hreads.run_chatReads slack h0 honce hbuf c
    rw [← hc] at hbefore hrun
    rw [Eff.run_bind_ok (run_serverFrame_listReply slack hnames c)] at hrun
    exact ⟨⟨_, hbefore, rfl⟩, _, hrun, rfl⟩

/-- A registry of two users. -/
private def aAndBob : List User := [⟨['a'], 0, 0⟩, ⟨['b', 'o', 'b'], 1, 1⟩]

/-- Their list, cut within the first name that is behind another one, and within the ending. -/
private def listReads : List Bytes :=
  [(listReply aAndBob).take 10, ((listReply aAndBob).drop 10).take 4, (listReply aAndBob).drop 14]

theorem listReply_printed_cut : (listReads.map List.length) = [10, 4, 2] ∧
    lines aAndBob = [(.stdout, [97]), (.stdout, [10]), (.stdout, [98, 111, 98]), (.stdout, [10])] ∧
      Printed roundedUp aAndBob listReads Process.initial :=
  ⟨by decide, by decide,
    (listReply_printed_iff roundedUp aAndBob listReads Process.initial (by decide)
      ⟨by decide, by decide, by decide⟩ (by decide) rfl).mpr (by decide)⟩

/-! ## A registry whose list is too long -/

/-- A frame in reads of one byte each, but for the first. -/
theorem cutInto_take_four {frame : Bytes} (h : 4 ≤ frame.length) :
    CutInto frame (frame.take 4 :: (frame.drop 4).map ([·])) := by
  have hfour : (frame.take 4).length = 4 := by simp [h]
  refine ⟨?_, ?_, ?_⟩
  · have hsingles : ((frame.drop 4).map ([·])).flatten = frame.drop 4 := by
      rw [← List.flatMap_def, List.flatMap_singleton']
    rw [List.flatten_cons, hsingles, List.take_append_drop]
  · intro b hb
    rcases List.mem_cons.mp hb with rfl | hb
    · exact List.ne_nil_of_length_pos (by omega)
    · obtain ⟨a, -, rfl⟩ := List.mem_map.mp hb
      exact List.cons_ne_nil a []
  · intro b hb
    rcases List.mem_cons.mp hb with rfl | hb
    · rw [hfour]
      decide
    · obtain ⟨a, -, rfl⟩ := List.mem_map.mp hb
      show 1 < maxline
      decide

/-- Every name takes two bytes or more of the list. -/
theorem two_mul_length_le_length_listed {users : List User} (h : ∀ u ∈ users, u.name ≠ []) :
    2 * users.length ≤ (listed users).length := by
  induction users with
  | nil => exact Nat.zero_le _
  | cons u users ih =>
      have hrest := ih fun v hv => h v (by simp [hv])
      have hname : 0 < (encode u.name).length :=
        List.length_pos_of_ne_nil fun hnil => h u (by simp) (encode_eq_nil.mp hnil)
      simp only [listed, List.map_cons, List.flatMap_cons, List.length_append, List.length_cons]
        at hrest ⊢
      omega

/-- The users numbered from zero up to `n`. -/
def numbered (n : ℕ) : List User := (List.range n).map fun i => ⟨Nat.toDigits 10 i, i, i⟩

theorem listable_numbered {n : ℕ} : ∀ u ∈ numbered n, Listable u.name := by
  intro u hu
  obtain ⟨i, -, rfl⟩ := List.mem_map.mp hu
  have hdigit : ∀ c, c.isDigit = false → c ∉ Nat.toDigits 10 i := by
    intro c hc hmem
    have := Nat.isDigit_of_mem_toDigits (by decide) (by decide) hmem
    rw [hc] at this
    cases this
  exact ⟨Nat.toDigits_ne_nil, hdigit ' ' (by decide), hdigit '\r' (by decide),
    hdigit '\x00' (by decide)⟩

/-- So many users that their list does not fit any block whose size is an `int`. -/
private def tooMany : ℕ := 1073740800

theorem not_listReply_printed :
    ¬∀ (slack : Slack) (users : List User) (reads : List Bytes) (c : Process),
      (∀ u ∈ users, Listable u.name) → CutInto (listReply users) reads →
        (∀ b ∈ reads.head?, 4 ≤ b.length) → c.buf = .of [] → Printed slack users reads c := by
  intro hall
  have hnames : ∀ u ∈ numbered tooMany, Listable u.name := listable_numbered
  have hlong : 2 * tooMany ≤ (listed (numbered tooMany)).length := by
    have h := two_mul_length_le_length_listed fun u hu => (hnames u hu).1
    rwa [numbered, List.length_map, List.length_range, ← numbered] at h
  have hlen : 2 * tooMany ≤ (listReply (numbered tooMany)).length := by
    rw [listReply_eq, List.length_append, List.length_append, List.length_cons]
    omega
  have hfour : 4 ≤ (listReply (numbered tooMany)).length := by
    have : 4 ≤ 2 * tooMany := by decide
    omega
  have hcut := cutInto_take_four hfour
  have hfirst : ∀ b ∈ (List.take 4 (listReply (numbered tooMany)) ::
      (List.drop 4 (listReply (numbered tooMany))).map ([·])).head?, 4 ≤ b.length := by
    simp [hfour]
  have hlt := length_lt_of_printed hnames hcut rfl
    (hall roundedUp _ _ Process.initial hnames hcut hfirst rfl)
  have : bufLimit = 2 * tooMany := by decide
  omega

end ME2U.System
