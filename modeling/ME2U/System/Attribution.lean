import ME2U.Client.Frames
import ME2U.Server.Requests

/-!
# Who a message is shown to be from

The server puts the name of the sender and the message behind one another, with a space between.
The client takes the first word for the name. A name with a separator in it is cut there: the
message goes to a window of another name.

* `fromFrame_filed_iff`: the message gets into the window of its sender iff the name is one word
  (and the reads fit the buffer, and the search for the name stays in its blocks).
* `Filed.windows_differ`: messages of different senders, when so filed, get into different windows.
-/

namespace ME2U.System

open Client

/-- The frame that hands on a message.
Source: `server.py` `find_user_to_send_msg_to` (line 118) -/
def fromFrame (s m : Str) : Bytes :=
  encode (Server.ending (Verb.fromUser ++ ' ' :: (s ++ ' ' :: m)))

/-- A name that an `IAM` request puts into the registry. -/
def Registrable (s : Str) : Prop :=
  ∃ conn addr data w w', (Server.handleData conn addr data).run w = (.ok .again, w') ∧
    w'.users = w.users ++ [⟨s, conn, addr⟩]

/-- A name that the client takes for one word. -/
def OneWord (s : Str) : Prop := '\x00' ∉ s ∧ '\t' ∉ s ∧ ' ' ∉ s ∧ '\n' ∉ s

instance (s : Str) : Decidable (OneWord s) := inferInstanceAs (Decidable (_ ∧ _))

/-- A name is one word in the bytes if it is one in the text. -/
theorem isWord_encode_iff {s : Str} : IsWord (encode s) ↔ OneWord s := by
  have htab : 9 ∈ encode s ↔ '\t' ∈ s := ascii_mem_encode (show IsAscii '\t' by decide)
  have hnewline : 10 ∈ encode s ↔ '\n' ∈ s := ascii_mem_encode (show IsAscii '\n' by decide)
  rw [OneWord, ← zero_mem_encode, ← htab, ← space_mem_encode, ← hnewline]
  constructor
  · intro h
    exact ⟨fun hm => h _ hm (by decide), fun hm => h _ hm (by decide), fun hm => h _ hm (by decide),
      fun hm => h _ hm (by decide)⟩
  · rintro ⟨h₀, h₁, h₂, h₃⟩ b hb hsep
    rcases hsep with rfl | rfl | rfl | rfl
    · exact h₀ hb
    · exact h₁ hb
    · exact h₂ hb
    · exact h₃ hb

/-- What was written to the windows. -/
def shown (c : Process) : List (ℕ × Bytes) :=
  c.wrote.filterMap fun w =>
    match w.1 with
    | .pipe n => some (n, w.2)
    | _ => none

/-- The message `m` got into the window of the user named exactly `s`, and nothing else into any
window; the window is of no user of another name. -/
def Filed (c c' : Process) (s m : Str) : Prop :=
  ∃ u ∈ c'.users, u.username = encode s ∧ shown c' = shown c ++ [(u.wrt, encode m)] ∧
    ∀ v ∈ c'.users, v.wrt = u.wrt → v.username = encode s

/-- What is in a `FROM` frame before its ending. -/
theorem fromFrame_eq (s m : Str) :
    fromFrame s m = msgFrom ++ 32 :: (encode s ++ 32 :: encode m) ++ Client.ending := by
  unfold fromFrame
  rw [Server.ending, encode_append, encode_append, encode_space_cons, encode_append,
    encode_space_cons, ending_eq]
  rfl

section Frame

variable {s m : Str} (hs : OneWord s) (hm : '\r' ∉ m ∧ '\x00' ∉ m)
include hs hm

/-- There is no NUL in what stands behind the verb -/
theorem zero_notMem_fromText : 0 ∉ encode s ++ 32 :: encode m :=
  zero_notMem_words (isWord_encode_iff.mpr hs).zero_notMem (mt zero_mem_encode.mp hm.2)

/-- nor in the whole body. -/
theorem zero_notMem_fromBody : 0 ∉ msgFrom ++ 32 :: (encode s ++ 32 :: encode m) :=
  zero_notMem_words (by decide) (zero_notMem_fromText hs hm)

/-- The frame ends once: without a line feed in the name, no ending begins in it. -/
theorem endsOnce_fromFrame : EndsOnce Client.ending (fromFrame s m) := by
  have hname : ¬terminatingSequence <:+: s := fun h => hs.2.2.2 (h.subset (by decide))
  have hrest : Terminable (s ++ ' ' :: m) :=
    (terminable_append_cons_iff space_notMem_terminatingSequence).mpr
      ⟨hname, .of_notMem hm.1⟩
  have hverb : Terminable Verb.fromUser := .of_notMem (by decide)
  rw [ending_eq]
  exact wellTerminated_wire_iff.mpr (hverb.append_space_cons hrest)

end Frame

/-- What the frame of a message does in a state whose buffer is empty: the message gets into the
window of the user of that name, who is added if there is none, and then at most a reply is sent. -/
theorem snd_run_serverFrame_from {slack : Slack} {s m : Str} (hs : OneWord s) (hm : '\x00' ∉ m)
    {c : Process} (hc : c.WellFormed) (hslack : ¬Overread slack (encode s) c.users) :
    ∃ u ∈ (c.withUser (encode s)).users, u.username = encode s ∧ ∃ ws, (∀ x ∈ ws, x.1 = Fd.sock) ∧
      ((serverFrame slack (textBlock (msgFrom ++ 32 :: (encode s ++ 32 :: encode m)) 4)).run c).2 =
        { c.withUser (encode s) with wrote := c.wrote ++ [(.pipe u.wrt, encode m)] ++ ws } := by
  have hword : IsWord (encode s) := isWord_encode_iff.mpr hs
  have hm0 : 0 ∉ encode m := mt zero_mem_encode.mp hm
  have h0 : 0 ∉ encode s ++ 32 :: encode m := zero_notMem_words hword.zero_notMem hm0
  obtain ⟨u, hu, hname, hrun⟩ := run_processMsg
    (fun u hu => (hc.isWord hu).zero_notMem) hword hm0 (show 4 ≠ 0 by decide) hslack
  refine ⟨u, hu, hname, ?_⟩
  rw [run_serverFrame_from, Eff.run_bind_ok hrun, Eff.run_bind, run_confirmFrom h0 (by decide)]
  split_ifs
  · exact ⟨[(.sock,
      confirmMsgFrom ++ 32 :: (encode s ++ 32 :: encode m ++ Client.ending))], by simp, rfl⟩
  · exact ⟨[], by simp, by simp⟩

/-- A message that got into a window of the user of that name is filed. -/
theorem filed_of_eq {s m : Str} {c c' : Process} (hc' : c'.WellFormed) {u : UserStruct}
    (hu : u ∈ c'.users) (hname : u.username = encode s) {ws : List (Fd × Bytes)}
    (hws : ∀ x ∈ ws, x.1 = Fd.sock)
    (hwrote : c'.wrote = c.wrote ++ [(.pipe u.wrt, encode m)] ++ ws) :
    Filed c c' s m := by
  refine ⟨u, hu, hname, ?_, ?_⟩
  · have hnone : ws.filterMap (fun w => match w.1 with
        | .pipe n => some (n, w.2)
        | _ => none) = [] := by
      apply List.filterMap_eq_nil_iff.mpr
      intro w hw
      rw [hws w hw]
    simp only [shown, hwrote, List.filterMap_append, hnone, List.append_nil]
    rfl
  · intro v hv heq
    rw [hc'.eq_of_wrt hv hu heq, hname]

section Reads

variable {slack : Slack} {s m : Str} {reads : List Bytes} {c : Process} (hs : OneWord s)
  (hm : '\r' ∉ m ∧ '\x00' ∉ m) (hc : c.WellFormed) (hempty : c.buf = .of [])
  (hreads : CutInto (fromFrame s m) reads)
include hs hm hc hempty hreads

/-- **The reads of a message** file it, where the buffer can take them and the search for the name
stays in its blocks; the user is added if there is none. -/
theorem snd_run_chatReads_fromFrame (hfits : Bufferable (fromFrame s m) reads)
    (hslack : ¬Overread slack (encode s) c.users) :
    Filed c ((chatReads slack reads).run c).2 s m ∧
      ((chatReads slack reads).run c).2.users = (c.withUser (encode s)).users := by
  have hbuf : c = c.withBuf (.of []) := by rw [← hempty]; rfl
  have h0 := zero_notMem_fromBody hs hm
  have honce := endsOnce_fromFrame hs hm
  have hwell := Process.keeps_wellFormed_chatReads slack reads c hc
  obtain ⟨u, hu, hname, ws, hws, hafter⟩ := snd_run_serverFrame_from hs hm.2 hc hslack
  rw [fromFrame_eq] at hreads honce hfits
  have hrun := hreads.run_chatReads slack h0 honce hfits c
  rw [← hbuf, Eff.run_bind] at hrun
  have hsnd : ((chatReads slack reads).run c).2 =
      { c.withUser (encode s) with wrote := c.wrote ++ [(.pipe u.wrt, encode m)] ++ ws } := by
    rw [hrun, ← hafter]
    rcases (serverFrame slack (textBlock (msgFrom ++ 32 :: (encode s ++ 32 :: encode m)) 4)).run c
      with ⟨e | next, c'⟩ <;> rfl
  rw [hsnd] at hwell ⊢
  exact ⟨filed_of_eq hwell hu hname hws rfl, rfl⟩

/-- Where the buffer cannot take the reads, or the search for the name leaves a block, nothing is
shown. -/
theorem shown_run_chatReads_fromFrame (h : ¬(Bufferable (fromFrame s m) reads ∧
    ¬Overread slack (encode s) c.users)) :
    shown ((chatReads slack reads).run c).2 = shown c := by
  have hbuf : c = c.withBuf (.of []) := by rw [← hempty]; rfl
  have h0 := zero_notMem_fromBody hs hm
  have honce := endsOnce_fromFrame hs hm
  rw [fromFrame_eq] at hreads honce h
  by_cases hfits : Bufferable (msgFrom ++ 32 :: (encode s ++ 32 :: encode m) ++ Client.ending) reads
  · have hslack : Overread slack (encode s) c.users := by
      by_contra hno
      exact h ⟨hfits, hno⟩
    have hrun := hreads.run_chatReads slack h0 honce hfits c
    rw [← hbuf, Eff.run_bind, run_serverFrame_from, textBlock_word, Eff.run_bind_error
      (run_processMsg_of_fault (fun u hu => (hc.isWord hu).zero_notMem) (isWord_encode_iff.mpr hs)
        (by decide) _ hslack)] at hrun
    rw [hrun]
  · obtain ⟨e, b, hrun⟩ := hreads.run_chatReads_of_not slack h0 honce hfits c
    rw [← hbuf] at hrun
    rw [hrun]
    rfl

end Reads

/-- Nothing is filed where nothing was shown. -/
theorem not_filed_of_shown {c c' : Process} {s m : Str} (h : shown c' = shown c) :
    ¬Filed c c' s m := by
  rintro ⟨u, -, -, hshown, -⟩
  rw [h] at hshown
  exact absurd (congrArg List.length hshown) (by simp)

/-- What is filed has a sender of one word: every username in a window is one. -/
theorem oneWord_of_filed {slack : Slack} {s m : Str} {reads : List Bytes}
    {c : Process} (hc : c.WellFormed)
    (h : Filed c ((chatReads slack reads).run c).2 s m) : OneWord s := by
  obtain ⟨u, hu, hname, -⟩ := h
  have hkeep := Process.keeps_wellFormed_chatReads slack reads c hc
  exact isWord_encode_iff.mp (hname ▸ hkeep.isWord hu)

/-- **Attribution**: for every name and message, every well-formed state with an empty buffer and
every way the frame is cut into reads, the message is filed under its sender iff the name is one
word, the buffer can take the reads, and no stored name without a byte behind it begins the name. -/
theorem fromFrame_filed_iff (slack : Slack) (s m : Str) (reads : List Bytes) (c : Process)
    (hm : '\r' ∉ m ∧ '\x00' ∉ m) (hc : c.WellFormed) (hempty : c.buf = .of [])
    (hreads : CutInto (fromFrame s m) reads) :
    Filed c ((chatReads slack reads).run c).2 s m ↔
      OneWord s ∧ Bufferable (fromFrame s m) reads ∧
        ¬Overread slack (encode s) c.users := by
  constructor
  · intro h
    have hs : OneWord s := oneWord_of_filed hc h
    refine ⟨hs, ?_⟩
    by_contra hnot
    exact not_filed_of_shown (shown_run_chatReads_fromFrame hs hm hc hempty hreads hnot) h
  · rintro ⟨hs, hfits, hslack⟩
    exact (snd_run_chatReads_fromFrame hs hm hc hempty hreads hfits hslack).1

/-- A client with users of the names `bob` and `bo`. -/
def acquainted : Process :=
  (Process.initial.addUser (encode ['b', 'o', 'b'])).addUser (encode ['b', 'o'])

theorem wellFormed_acquainted : acquainted.WellFormed :=
  (Process.wellFormed_initial.addUser (by decide)).addUser (by decide)

/-- A message of two words of a user who has a window, in two reads. -/
theorem fromFrame_filed_two_reads :
    Filed acquainted ((chatReads roundedUp [(fromFrame ['b', 'o'] ['h', ' ', 'i']).take 6,
      (fromFrame ['b', 'o'] ['h', ' ', 'i']).drop 6]).run acquainted).2 ['b', 'o']
      ['h', ' ', 'i'] :=
  (fromFrame_filed_iff roundedUp _ _ _ acquainted (by decide) wellFormed_acquainted rfl
    ⟨by decide, by decide, by decide⟩).mpr ⟨by decide, by decide, by decide⟩

/-- Every name without a carriage return is registered, if it is the first. -/
theorem registrable_of_notMem {s : Str} (hs : '\r' ∉ s) : Registrable s := by
  have hreq : (Request.iam s).CRFree := hs
  refine ⟨0, 0, wire (Request.iam s).render, ⟨[], fun _ => true, []⟩,
    Server.World.loggedIn ⟨[], fun _ => true, []⟩ 0 0 s, ?_, rfl⟩
  rw [Server.handleData_wire 0 0 hreq, Server.run_dispatch_iam_of_free 0 0 rfl rfl]

/-- A name of two words gets registered, and its messages are filed under another name. -/
theorem not_fromFrame_filed :
    ¬∀ (slack : Slack) (s m : Str) (reads : List Bytes) (c : Process), Registrable s →
      '\r' ∉ m ∧ '\x00' ∉ m → c.WellFormed → c.buf = .of [] → CutInto (fromFrame s m) reads →
      Filed c ((chatReads slack reads).run c).2 s m := by
  intro hall
  have hcut : CutInto (fromFrame ['a', ' ', 'b'] ['h']) [fromFrame ['a', ' ', 'b'] ['h']] :=
    ⟨by simp, by decide, by decide⟩
  have hfiled :=
    hall roundedUp ['a', ' ', 'b'] ['h'] _ Process.initial (registrable_of_notMem (by decide))
    (by decide) Process.wellFormed_initial rfl hcut
  exact absurd (oneWord_of_filed Process.wellFormed_initial hfiled) (by decide)

/-- **Messages of different senders**, when so filed, get into different windows, where the windows
of the first are still there. -/
theorem Filed.windows_differ {c₀ c₁ c₂ c₃ : Process} {s₁ m₁ s₂ m₂ : Str} (h₁ : Filed c₀ c₁ s₁ m₁)
    (h₂ : Filed c₂ c₃ s₂ m₂) (hstay : ∀ x ∈ c₁.windows, x ∈ c₃.windows) (hne : s₁ ≠ s₂) :
    ∃ n₁ n₂, n₁ ≠ n₂ ∧ shown c₁ = shown c₀ ++ [(n₁, encode m₁)] ∧
      shown c₃ = shown c₂ ++ [(n₂, encode m₂)] := by
  obtain ⟨u₁, hu₁, hname₁, hshown₁, -⟩ := h₁
  obtain ⟨u₂, -, -, hshown₂, honly⟩ := h₂
  refine ⟨u₁.wrt, u₂.wrt, fun heq => hne ?_, hshown₁, hshown₂⟩
  obtain ⟨v, hv, hpair⟩ := List.mem_map.mp (hstay _ (List.mem_map_of_mem hu₁))
  obtain ⟨hvname, hvwrt⟩ := Prod.mk.inj hpair
  have hname := honly v hv (hvwrt.trans heq)
  rw [hvname, hname₁] at hname
  exact encode_inj.mp hname

/-- The windows stay over any reads. -/
theorem windows_subset_chatReads (slack : Slack) (reads : List Bytes) (c : Process) :
    ∀ x ∈ c.windows, x ∈ ((chatReads slack reads).run c).2.windows :=
  fun x hx => (Process.stable_mem_windows x).keeps_chatReads (fun _ _ h => h)
    (fun _ _ h => h) slack reads c hx

end ME2U.System
