import Mathlib.Data.List.Nodup
import ME2U.Client.Chat
import ME2U.Client.Framing

/-!
# The reads of one frame, and what every read keeps

`regular_chat` gives each read to `process_string` and acts on what that returns. The reads of a
frame that ends once leave the state alone, apart from the buffer, until the last of them; that one
does what the body selects.

* `CutInto.run_chatReads`, `CutInto.run_chatReads_dropLast`: the reads of a frame, and those before
  the last one.
* `CutInto.run_chatReads_of_not`: where the buffer cannot take the reads, nothing is done.
* `Stable`: predicates on the state that every read keeps; among them that usernames are words and
  no two windows share a pipe (`Process.WellFormed`), and that a given window is there.
-/

namespace ME2U.Client

/-- The process with another receive buffer. -/
def Process.withBuf (c : Process) (s : RecvBuf) : Process := { c with buf := s }

/-! ## One read -/

section Reads

variable (slack : Slack)

/-- A read on a manageable text goes by what the receiver returns. -/
theorem run_chatRead {p b : Bytes} (hp : 0 ∉ p) (hb : IsRead b) (hlim : p.length < bufLimit)
    (hq : Manageable (p ++ b)) (c : Process) :
    (chatRead slack b).run (c.withBuf (.of p)) =
      (match (receive ending p b).1 with
        | none => pure .input
        | some body => serverFrame slack (textBlock body 4) : Chat Next).run
        (c.withBuf (.of (receive ending p b).2)) := by
  have hcall := run_processString_of_manageable hp hb hlim hq
  unfold chatRead
  rw [Eff.run_zoom_bind_ok (t := c.withBuf (.of p)) hcall]
  cases (receive ending p b).1 <;> rfl

/-- A read on a text that is not manageable stops the client, which has done nothing. -/
theorem run_chatRead_of_not {p b : Bytes} (hp : 0 ∉ p) (hb : IsRead b) (hlim : p.length < bufLimit)
    (hq : ¬Manageable (p ++ b)) (c : Process) :
    ∃ e s, (chatRead slack b).run (c.withBuf (.of p)) = (.error e, c.withBuf s) := by
  obtain ⟨f, s, hcall⟩ := run_processString_of_not hp hb hlim hq
  exact ⟨_, _, Eff.run_zoom_bind_error (t := c.withBuf (.of p)) hcall _⟩

/-- A frame in one read does what its body selects. -/
theorem run_chatRead_frame {body : Bytes} (h0 : 0 ∉ body) (hlen : (body ++ ending).length < maxline)
    {c : Process} (hc : c.buf = .of []) :
    (chatRead slack (body ++ ending)).run c = (serverFrame slack (textBlock body 4)).run c := by
  have hcall := run_processString_frame h0 hlen
  rw [← hc] at hcall
  unfold chatRead
  rw [Eff.run_zoom_bind_ok (t := c) hcall]

/-! ## The reads of one frame -/

/-- The reads of a frame before its last one leave it pending. -/
theorem run_chatReads_prefix {p rest : Bytes} {reads : List Bytes}
    (honce : EndsOnce ending (p ++ reads.flatten ++ rest)) (hrest : rest ≠ []) (hp : 0 ∉ p)
    (hreads : ∀ b ∈ reads, IsRead b) (hlim : p.length < bufLimit)
    (hq : ∀ q ∈ partials p reads, Manageable q) (c : Process) :
    (chatReads slack reads).run (c.withBuf (.of p)) =
      (.ok (), c.withBuf (.of (p ++ reads.flatten))) := by
  induction reads generalizing p with
  | nil => simp [chatReads]
  | cons b bs ih =>
      unfold partials at hq
      rw [List.forall_mem_cons] at hq
      have hb := hreads b (by simp)
      have hopen : ¬ending <:+ p ++ b := by
        have hsplit : p ++ (b :: bs).flatten ++ rest = p ++ b ++ (bs.flatten ++ rest) := by simp
        rw [hsplit] at honce
        rw [honce.isSuffix_iff]
        simp [hrest]
      have hone := run_chatRead slack hp hb hlim hq.1 c
      rw [receive_of_not_isSuffix hopen] at hone
      have hnext := ih (p := p ++ b) (by simpa using honce) (by simp [hp, hb.1])
        (fun d hd => hreads d (by simp [hd])) hq.1.2 hq.2
      unfold chatReads
      rw [Eff.run_bind_ok hone, if_neg (by decide), hnext]
      simp

/-- **The reads of one frame** do what its body selects. -/
theorem run_chatReads_frame {body : Bytes} {reads : List Bytes}
    (honce : EndsOnce ending (body ++ ending)) (hne : ∀ b ∈ reads, b ≠ [])
    (hreads : ∀ b ∈ reads, IsRead b) (hframe : reads.flatten = body ++ ending)
    (hq : ∀ q ∈ partials [] reads, Manageable q) (c : Process) :
    (chatReads slack reads).run (c.withBuf (.of [])) =
      (do
        let _ ← serverFrame slack (textBlock body 4)
        pure ()).run (c.withBuf (.of [])) := by
  suffices hgen : ∀ (reads : List Bytes) (p : Bytes), reads ≠ [] → 0 ∉ p → p.length < bufLimit →
      (∀ b ∈ reads, b ≠ []) → (∀ b ∈ reads, IsRead b) → p ++ reads.flatten = body ++ ending →
      (∀ q ∈ partials p reads, Manageable q) →
      (chatReads slack reads).run (c.withBuf (.of p)) =
        (do
          let _ ← serverFrame slack (textBlock body 4)
          pure ()).run (c.withBuf (.of [])) by
    refine hgen reads [] ?_ (by simp) (by decide) hne hreads (by simpa using hframe) hq
    rintro rfl
    exact ending_ne_nil (List.append_eq_nil_iff.mp hframe.symm).2
  intro reads
  induction reads with
  | nil => exact fun p h => absurd rfl h
  | cons b bs ih =>
      intro p _ hp hlim hne hreads hframe hq
      unfold partials at hq
      rw [List.forall_mem_cons] at hq
      have hb := hreads b (by simp)
      have hone := run_chatRead slack hp hb hlim hq.1 c
      by_cases hbs : bs = []
      · -- the last read completes the frame
        subst hbs
        rw [receive_of_isSuffix (by simpa using hframe)] at hone
        unfold chatReads
        rw [Eff.run_bind, Eff.run_bind, hone]
        dsimp only
        rcases (serverFrame slack (textBlock body 4)).run (c.withBuf (.of [])) with ⟨e | next, c'⟩
        · rfl
        · by_cases hnext : next = .returned <;> simp [hnext, chatReads]
      · have hopen : ¬ending <:+ p ++ b := by
          have hsplit : body ++ ending = p ++ b ++ bs.flatten := by rw [← hframe]; simp
          rw [hsplit] at honce
          rw [honce.isSuffix_iff]
          obtain ⟨d, ds, rfl⟩ := List.exists_cons_of_ne_nil hbs
          simp [hne d (by simp)]
        rw [receive_of_not_isSuffix hopen] at hone
        unfold chatReads
        rw [Eff.run_bind_ok hone, if_neg (by decide)]
        exact ih (p ++ b) hbs (by simp [hp, hb.1]) hq.1.2 (fun d hd => hne d (by simp [hd]))
          (fun d hd => hreads d (by simp [hd])) (by simpa using hframe) hq.2

/-- Where a text on the way is not manageable, the client stops and has done nothing. -/
theorem run_chatReads_frame_of_not {p rest : Bytes} {reads : List Bytes}
    (honce : EndsOnce ending (p ++ reads.flatten ++ rest)) (hne : ∀ b ∈ reads, b ≠ []) (hp : 0 ∉ p)
    (hreads : ∀ b ∈ reads, IsRead b) (hlim : p.length < bufLimit)
    (hq : ¬∀ q ∈ partials p reads, Manageable q) (c : Process) :
    ∃ e s, (chatReads slack reads).run (c.withBuf (.of p)) = (.error e, c.withBuf s) := by
  induction reads generalizing p with
  | nil => simp [partials] at hq
  | cons b bs ih =>
      unfold partials at hq
      rw [List.forall_mem_cons] at hq
      have hb := hreads b (by simp)
      by_cases hone : Manageable (p ++ b)
      · have hmore : ¬∀ q ∈ partials (p ++ b) bs, Manageable q := fun h => hq ⟨hone, h⟩
        have hopen : ¬ending <:+ p ++ b := by
          have hsplit : p ++ (b :: bs).flatten ++ rest = p ++ b ++ (bs.flatten ++ rest) := by simp
          rw [hsplit] at honce
          rw [honce.isSuffix_iff]
          obtain ⟨d, ds, rfl⟩ : ∃ d ds, bs = d :: ds := List.exists_cons_of_ne_nil (by
            rintro rfl
            exact hmore (by simp [partials]))
          simp [hne d (by simp)]
        have hrun := run_chatRead slack hp hb hlim hone c
        rw [receive_of_not_isSuffix hopen] at hrun
        unfold chatReads
        rw [Eff.run_bind_ok hrun, if_neg (by decide)]
        exact ih (by simpa using honce) (fun d hd => hne d (by simp [hd])) (by simp [hp, hb.1])
          (fun d hd => hreads d (by simp [hd])) hone.2 hmore
      · obtain ⟨e, s, hrun⟩ := run_chatRead_of_not slack hp hb hlim hone c
        exact ⟨e, s, by rw [chatReads, Eff.run_bind_error hrun]⟩

/-- The reads in which a frame arrives. -/
structure CutInto (frame : Bytes) (reads : List Bytes) : Prop where
  flatten_eq : reads.flatten = frame
  ne_nil : ∀ b ∈ reads, b ≠ []
  length_lt : ∀ b ∈ reads, b.length < maxline

/-- What the receive buffer needs of the reads of a frame: the first holds four bytes, so that the
comparison with the ending stays in the block, and the frame fits the block. -/
def Bufferable (frame : Bytes) (reads : List Bytes) : Prop :=
  (∀ b ∈ reads.head?, 4 ≤ b.length) ∧ frame.length < bufLimit

instance (frame : Bytes) (reads : List Bytes) : Decidable (Bufferable frame reads) :=
  inferInstanceAs (Decidable (_ ∧ _))

namespace CutInto

variable {frame body : Bytes} {reads : List Bytes}

/-- The pieces of a frame without a NUL are reads. -/
theorem isRead (h : CutInto frame reads) (h0 : 0 ∉ frame) : ∀ b ∈ reads, IsRead b := by
  intro b hb
  refine ⟨fun hmem => h0 ?_, h.length_lt b hb⟩
  rw [← h.flatten_eq]
  exact List.mem_flatten.mpr ⟨b, hb, hmem⟩

/-- A frame is bufferable when all its partial texts are manageable. -/
theorem forall_partials_iff (h : CutInto (body ++ ending) reads) :
    (∀ q ∈ partials [] reads, Manageable q) ↔ Bufferable (body ++ ending) reads := by
  cases reads with
  | nil => exact absurd (List.append_eq_nil_iff.mp h.flatten_eq.symm).2 ending_ne_nil
  | cons first more =>
      rw [forall_partials_manageable_iff, h.flatten_eq, Bufferable]
      simp

/-- **The reads of a frame** do what its body selects. -/
theorem run_chatReads (h : CutInto (body ++ ending) reads) (h0 : 0 ∉ body)
    (honce : EndsOnce ending (body ++ ending)) (hbuf : Bufferable (body ++ ending) reads)
    (c : Process) :
    (chatReads slack reads).run (c.withBuf (.of [])) =
      (do
        let _ ← serverFrame slack (textBlock body 4)
        pure ()).run (c.withBuf (.of [])) :=
  run_chatReads_frame slack honce h.ne_nil (h.isRead (zero_notMem_frame h0)) h.flatten_eq
    (h.forall_partials_iff.mpr hbuf) c

/-- The reads before the last one do nothing. -/
theorem run_chatReads_dropLast (h : CutInto (body ++ ending) reads) (h0 : 0 ∉ body)
    (honce : EndsOnce ending (body ++ ending)) (hbuf : Bufferable (body ++ ending) reads)
    (c : Process) :
    (chatReads slack reads.dropLast).run (c.withBuf (.of [])) =
      (.ok (), c.withBuf (.of reads.dropLast.flatten)) := by
  have hreads : reads ≠ [] := by
    rintro rfl
    exact ending_ne_nil (List.append_eq_nil_iff.mp h.flatten_eq.symm).2
  have hlast := List.dropLast_append_getLast hreads
  have hstream : reads.dropLast.flatten ++ reads.getLast hreads = body ++ ending := by
    rw [← h.flatten_eq]
    conv_rhs => rw [← hlast]
    simp
  have hq := h.forall_partials_iff.mpr hbuf
  rw [← hlast, partials_append, List.forall_mem_append] at hq
  have honce' : EndsOnce ending ([] ++ (reads.dropLast.flatten ++ reads.getLast hreads)) := by
    rwa [List.nil_append, hstream]
  have hrun := run_chatReads_prefix slack honce' (h.ne_nil _ (List.getLast_mem hreads)) (by simp)
    (fun b hb => h.isRead (zero_notMem_frame h0) b (List.mem_of_mem_dropLast hb)) (by decide) hq.1 c
  simpa using hrun

/-- Where the buffer cannot take the reads, the client stops and has done nothing. -/
theorem run_chatReads_of_not (h : CutInto (body ++ ending) reads) (h0 : 0 ∉ body)
    (honce : EndsOnce ending (body ++ ending)) (hbuf : ¬Bufferable (body ++ ending) reads)
    (c : Process) :
    ∃ e s, (chatReads slack reads).run (c.withBuf (.of [])) = (.error e, c.withBuf s) := by
  rw [← h.forall_partials_iff] at hbuf
  have honce' : EndsOnce ending ([] ++ reads.flatten ++ []) := by
    rwa [List.nil_append, List.append_nil, h.flatten_eq]
  exact run_chatReads_frame_of_not slack honce' h.ne_nil
    (by simp) (h.isRead (zero_notMem_frame h0)) (by decide) hbuf c

end CutInto

end Reads

/-- What follows an access to memory may be checked knowing what was read. -/
theorem keeps_mem_bind {σ α β : Type} {I : σ → Prop} {x : Except Fault α} {k : α → Eff σ Halt β}
    (h : ∀ a, x = .ok a → Eff.Keeps I (k a)) : Eff.Keeps I (mem x >>= k) := by
  cases x with
  | error f => exact fun _ hc => hc
  | ok a => exact h a rfl

/-! ## What every read keeps -/

/-- Where the handlers write, but for what goes to the server: the terminal, and the windows of the
users. -/
def Process.WritesTo (c : Process) (fd : Fd) : Prop :=
  fd = .stdout ∨ ∃ u ∈ c.users, fd = .pipe u.wrt

/-- The descriptors of the windows are not the socket. -/
theorem Process.WritesTo.ne_sock {c : Process} {fd : Fd} (h : c.WritesTo fd) : fd ≠ .sock := by
  obtain rfl | ⟨u, -, rfl⟩ := h <;> simp

/-- What is written to the terminal keeps the predicate. -/
def Printing (I : Process → Prop) : Prop :=
  ∀ c bs, I c → I { c with wrote := c.wrote ++ [(.stdout, bs)] }

namespace Printing

variable {I : Process → Prop} (hI : Printing I)
include hI

/-- What output keeps, a line of it keeps, -/
theorem keeps_write (bs : Bytes) : Eff.Keeps I (write .stdout bs) := .modify fun c hc => hI c bs hc

/-- and many of them, -/
theorem keeps_writeLines (tokens : List Bytes) : Eff.Keeps I (writeLines tokens) := by
  induction tokens with
  | nil => exact .pure ()
  | cons t ts ih =>
      exact .bind (hI.keeps_write _) fun _ => .bind (hI.keeps_write _) fun _ => ih

/-- and the list of users, -/
theorem keeps_listUsers (userList : Block) : Eff.Keeps I (listUsers userList) :=
  keeps_mem_bind fun _ _ => hI.keeps_writeLines _

/-- and the report of an unknown receiver, -/
theorem keeps_noUserExists (string : Block) : Eff.Keeps I (noUserExists string) := by
  refine .bind (hI.keeps_write _) fun _ => keeps_mem_bind fun _ _ => ?_
  exact .bind (hI.keeps_write _) fun _ => hI.keeps_write _

/-- and that of somebody who left. -/
theorem keeps_someoneExited (string : Block) : Eff.Keeps I (someoneExited string) :=
  .bind (hI.keeps_write _) fun _ => keeps_mem_bind fun _ _ => hI.keeps_write _

end Printing

/-- What the handlers do to the state without adding users, but for the messages, keeps the
predicate: bytes are written to the terminal, and a message to a user is counted as confirmed. -/
structure Quiet (I : Process → Prop) : Prop where
  wrote : ∀ c fd bs, fd = .stdout → I c → I { c with wrote := c.wrote ++ [(fd, bs)] }
  confirm : ∀ c i, I c →
    I { c with users := c.users.modify i fun u => { u with otCnt := u.otCnt + 1 } }

namespace Quiet

variable {I : Process → Prop} (hI : Quiet I)
include hI

/-- What is quiet about all writes is so about output. -/
theorem printing : Printing I := fun c bs hc => hI.wrote c .stdout bs rfl hc

/-- A confirmation keeps what a count keeps. -/
theorem keeps_msgConfirmed (slack : Slack) (name : Block) :
    Eff.Keeps I (msgConfirmed slack name) := by
  refine .bind .get fun c => keeps_mem_bind fun found _ => ?_
  cases found with
  | none => exact .stop _
  | some i => exact .modify fun c hc => hI.confirm c i hc

end Quiet

/-- What the handlers do to the state, but for the reply to a message, keeps the predicate: bytes
are written to windows and the terminal, a word is added to the users as the name of a new one, and
a message to a user is counted as confirmed. -/
structure Stable (I : Process → Prop) : Prop where
  wrote : ∀ c fd bs, c.WritesTo fd → I c → I { c with wrote := c.wrote ++ [(fd, bs)] }
  addUser : ∀ c w, IsWord w → I c → I (c.addUser w)
  confirm : ∀ c i, I c →
    I { c with users := c.users.modify i fun u => { u with otCnt := u.otCnt + 1 } }

namespace Stable

variable {I : Process → Prop} (hI : Stable I)
include hI

/-- What is stable is quiet. -/
theorem quiet : Quiet I := ⟨fun c fd bs hfd hc => hI.wrote c fd bs (.inl hfd) hc, hI.confirm⟩

/-- A new user keeps what is stable, -/
theorem keeps_createNewUser {w : Bytes} (hw : IsWord w) :
    Eff.Keeps I (createNewUser (textBlock w 1)) := by
  intro c hc
  rw [run_createNewUser c hw.zero_notMem 0]
  exact hI.addUser c w hw hc

/-- the filing of a message does, -/
theorem keeps_processMsg (slack : Slack) (msg : Block) : Eff.Keeps I (processMsg slack msg) := by
  refine keeps_mem_bind fun n hn => keeps_mem_bind fun name hname => ?_
  -- the name is a word, as it was measured as one
  obtain ⟨w, b, q, rfl, hw, -, rfl⟩ := exists_of_wordLength hn
  obtain rfl : textBlock w 1 = name := Except.ok.inj ((memcpy_cells_word w _).symm.trans hname)
  refine .bind .get fun c => keeps_mem_bind fun found _ => ?_
  -- the window is that of the user found or added
  cases found
  all_goals refine .bind ?_ fun i => ?_
  case none.refine_1 => exact hI.keeps_createNewUser hw
  case some.refine_1 => exact .pure _
  all_goals
    refine keeps_mem_bind fun text _ => .get_bind fun c hc => ?_
    cases huser : c.users[i]? with
    | none => exact hc
    | some u => exact hI.wrote c _ text (.inr ⟨u, List.mem_of_getElem? huser, rfl⟩) hc

variable (hsock : ∀ c bs, I c → I { c with wrote := c.wrote ++ [(.sock, bs)] })

include hsock in
omit hI in
/-- and the answer to it, -/
theorem keeps_confirmFrom (sender : Block) : Eff.Keeps I (confirmFrom sender) := by
  refine keeps_mem_bind fun _ _ => keeps_mem_bind fun _ _ => keeps_mem_bind fun _ _ => ?_
  exact keeps_mem_bind fun _ _ => keeps_mem_bind fun _ _ => .modify fun c hc => hsock c _ hc

include hsock

/-- and so every frame of the server, -/
theorem keeps_serverFrame (slack : Slack) (processStr : Block) :
    Eff.Keeps I (serverFrame slack processStr) := by
  apply keeps_mem_bind
  intro n _
  refine keeps_mem_bind fun _ _ => .ite (fun _ => ?_) fun _ => ?_
  · exact .bind (hI.quiet.printing.keeps_listUsers _) fun _ => .pure _
  refine keeps_mem_bind fun _ _ => .ite (fun _ => ?_) fun _ => ?_
  · exact .bind (hI.quiet.keeps_msgConfirmed slack _) fun _ => .pure _
  refine keeps_mem_bind fun _ _ => .ite (fun _ => ?_) fun _ => ?_
  · exact .bind (hI.quiet.printing.keeps_noUserExists _) fun _ => .pure _
  refine keeps_mem_bind fun _ _ => .ite (fun _ => ?_) fun _ => ?_
  · exact .bind (hI.keeps_processMsg slack _) fun _ =>
      .bind (keeps_confirmFrom hsock _) fun _ => .pure _
  refine keeps_mem_bind fun _ _ => .ite (fun _ => ?_) fun _ => ?_
  · exact .bind (hI.quiet.printing.keeps_someoneExited _) fun _ => .pure _
  exact keeps_mem_bind fun _ _ => .ite (fun _ => .pure _) fun _ => .pure _

variable (hbuf : ∀ c s, I c → I (Process.withBuf c s))

include hbuf

/-- and so every read. -/
theorem keeps_chatRead (slack : Slack) (b : Bytes) : Eff.Keeps I (chatRead slack b) := by
  refine .bind (.zoom fun s c hc => hbuf c s hc) fun processStr => ?_
  cases processStr with
  | none => exact .pure _
  | some blk => exact hI.keeps_serverFrame hsock slack blk

/-- A stable predicate is kept whatever is read. -/
theorem keeps_chatReads (slack : Slack) (reads : List Bytes) :
    Eff.Keeps I (chatReads slack reads) := by
  induction reads with
  | nil => exact .pure ()
  | cons b bs ih =>
      exact .bind (hI.keeps_chatRead hsock hbuf slack b) fun next =>
        .ite (fun _ => .pure ()) fun _ => ih

end Stable

/-- A change that a function does not see. -/
theorem map_modify_of_eq {α β : Type} {f : α → α} {g : α → β} (h : ∀ a, g (f a) = g a) (l : List α)
    (i : ℕ) : (l.modify i f).map g = l.map g := by
  induction l generalizing i with
  | nil => simp
  | cons a l ih => cases i <;> simp [h, ih]

/-- Usernames are words, and the windows have pipes of their own, all handed out already. -/
structure Process.WellFormed (c : Process) : Prop where
  words : ∀ n ∈ c.users.map UserStruct.username, IsWord n
  pipes : (c.users.map UserStruct.wrt).Nodup
  handedOut : ∀ n ∈ c.users.map UserStruct.wrt, n < c.nextFd

namespace Process

/-- The state in which `regular_chat` starts when nothing is pending: no users, and the descriptors
behind that of the socket. -/
def initial : Process := ⟨.of [], [], 4, []⟩

/-- At the start there are no users. -/
theorem wellFormed_initial : initial.WellFormed :=
  ⟨by simp [initial], by simp [initial], by simp [initial]⟩

/-- The names of users are words. -/
theorem WellFormed.isWord {c : Process} (h : c.WellFormed) {u : UserStruct} (hu : u ∈ c.users) :
    IsWord u.username :=
  h.words _ (List.mem_map_of_mem hu)

/-- A user is known by its pipe. -/
theorem WellFormed.eq_of_wrt {c : Process} (h : c.WellFormed) {u v : UserStruct} (hu : u ∈ c.users)
    (hv : v ∈ c.users) (heq : u.wrt = v.wrt) : u = v :=
  List.inj_on_of_nodup_map h.pipes hu hv heq

/-- A new user is well formed, -/
theorem WellFormed.addUser {c : Process} (h : c.WellFormed) {w : Bytes} (hw : IsWord w) :
    (c.addUser w).WellFormed := by
  refine ⟨?_, ?_, ?_⟩
  · unfold Process.addUser
    rw [List.map_append, List.forall_mem_append]
    exact ⟨h.words, by simpa using hw⟩
  · unfold Process.addUser
    rw [List.map_append]
    apply h.pipes.append (List.nodup_singleton _)
    intro n hn hnew
    obtain rfl := List.mem_singleton.mp hnew
    exact absurd (h.handedOut _ hn) (by simp)
  · unfold Process.addUser
    rw [List.map_append, List.forall_mem_append]
    refine ⟨fun n hn => Nat.lt_add_right 2 (h.handedOut n hn), ?_⟩
    simp

/-- and a write changes none. -/
theorem WellFormed.wrote {c : Process} (h : c.WellFormed) (fd : Fd) (bs : Bytes) :
    Process.WellFormed { c with wrote := c.wrote ++ [(fd, bs)] } :=
  ⟨h.words, h.pipes, h.handedOut⟩

/-- The client stays well formed. -/
theorem stable_wellFormed : Stable WellFormed where
  wrote := fun _ fd bs _ h => h.wrote fd bs
  addUser := fun _ _ hw h => h.addUser hw
  confirm := by
    intro c i h
    refine ⟨?_, ?_, ?_⟩ <;> rw [map_modify_of_eq (by simp)]
    · exact h.words
    · exact h.pipes
    · exact h.handedOut

/-- The windows, each by its name and its pipe. -/
def windows (c : Process) : List (Bytes × ℕ) := c.users.map fun u => (u.username, u.wrt)

/-- A window stays. -/
theorem stable_mem_windows (x : Bytes × ℕ) : Stable fun c => x ∈ c.windows where
  wrote := fun _ _ _ _ h => h
  addUser := by
    intro c w _ h
    unfold windows
    rw [addUser, List.map_append]
    exact List.mem_append_left _ h
  confirm := by
    intro c i h
    unfold windows
    rw [map_modify_of_eq (by simp)]
    exact h

/-- **Whatever is read**, usernames stay words and no two windows share a pipe. -/
theorem keeps_wellFormed_chatReads (slack : Slack) (reads : List Bytes) :
    Eff.Keeps WellFormed (chatReads slack reads) :=
  stable_wellFormed.keeps_chatReads (fun _ _ h => h.wrote _ _)
    (fun _ _ h => ⟨h.words, h.pipes, h.handedOut⟩) slack reads

end Process

end ME2U.Client
