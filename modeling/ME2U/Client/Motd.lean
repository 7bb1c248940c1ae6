import ME2U.Client.Frames
import ME2U.Client.Login

/-!
# What is printed of the message of the day

Behind the read that completes `MAI` the next read goes over it in `read_buf`. When the frame of the
message is complete, its text is printed in the length of the last read, less the length of the verb
and plus one: two bytes more than the block has where the frame came in one read, and too few, or a
number that wraps around, where it came in several.

* `loginReads`: the reads of the login, up to the last one.
* `run_loginReads_motd`: what is printed, for every cutting of the frame.
* `motdExact_never`: that is the message for no cutting.
-/

namespace ME2U.Client

/-- The frame of the approval. -/
def approvalFrame : Bytes := serverUserApprove ++ ending

/-- The frame of a message of the day. -/
def motdBody (t : Bytes) : Bytes := serverMotd ++ 32 :: t

/-- The reads of the login, one after the other, until it is through.
Source: `client.c` `login_proc` (line 111) -/
def loginReads (userName : Block) : List Bytes → LoginM Unit
  | [] => pure ()
  | b :: bs => do
      let c ← Eff.get
      if c.state = .done then pure ()
      else do
        loginRead userName (.data b)
        loginReads userName bs

/-- The login at its `select` in state 3, with nothing pending. -/
structure Login.AwaitsApproval (c : Login) : Prop where
  state : c.state = .approval
  buf : c.buf = .of []
  readBuf : c.readBuf = Client.readBuf []

/-- The message of the day is printed exactly. -/
structure MotdExact (userName : Block) (c : Login) (t : Bytes) (reads : List Bytes) : Prop where
  /-- `process_string` is given the bytes that were read. -/
  given : ∀ pre b post, reads = pre ++ b :: post → ∃ c',
    (loginReads userName (approvalFrame :: pre)).run c = (.ok (), c') ∧
      cstr ((fill b).run c').2.readBuf = .ok b
  /-- The length given to `write` stays in the block, and the bytes are the text. -/
  printed : ∃ c' p n, (loginReads userName (approvalFrame :: reads)).run c = (.ok (), c') ∧
    c'.printed = c.printed ++ [(p, n)] ∧ n ≤ p.length ∧ p.take n = cells t

/-! ## The read of the approval -/

theorem isRead_approvalFrame : IsRead approvalFrame := ⟨by decide, by decide⟩

/-- Behind the approval, the login goes on to state 4 with the approval in `read_buf`. -/
theorem Login.AwaitsApproval.run_loginReads {c : Login} (hc : c.AwaitsApproval) (userName : Block)
    (bs : List Bytes) :
    (loginReads userName (approvalFrame :: bs)).run c =
      (loginReads userName bs).run { c with
        state := .motd
        readBuf := Client.readBuf approvalFrame } := by
  have hopen : ¬c.state = .done := by rw [hc.state]; decide
  have happroved := run_loginString_approval
    (c := { c with buf := .of [], readBuf := Client.readBuf (laidOver approvalFrame []) }) hc.state
    userName approvalFrame.length
  have hframe : [] ++ laidOver approvalFrame [] = serverUserApprove ++ ending :=
    laidOver_nil approvalFrame
  have hread := run_loginRead_some hc.buf hc.readBuf (by simp) (by decide) isRead_approvalFrame
    ⟨by simp, by decide⟩ ⟨by decide, by decide⟩ hframe userName
  rw [happroved] at hread
  rw [loginReads, Eff.run_get_bind, if_neg hopen, Eff.run_bind_ok hread, laidOver_nil, ← hc.buf]

/-! ## The reads of the message -/

/-- What is printed for a body whose last read had `n` bytes. -/
def printedFor (body : Bytes) (n : ℕ) : Block × ℕ :=
  ((textBlock body 4).drop (serverMotd.length + 1),
    (((n : ℤ) - serverMotd.length + 1) % sizeModulus).toNat)

/-- **The reads of the message**: `p` is pending, and the first read covers what `read_buf` holds.
The client stops, or prints in the length of the last read. -/
theorem run_loginReads_motd {rest : Bytes} (h0 : 0 ∉ rest)
    (honce : EndsOnce ending (serverMotd ++ rest ++ ending)) (userName : Block) {reads : List Bytes}
    (hreads : reads ≠ []) (hlen : ∀ b ∈ reads, b ≠ [] ∧ b.length < maxline)
    {c : Login} {p r : Bytes}
    (hstate : c.state = .motd) (hbuf : c.buf = .of p)
    (hread : c.readBuf = readBuf r) (hr : IsRead r)
    (hcover : ∀ b ∈ reads.head?, r.length ≤ b.length) (hlim : p.length < bufLimit)
    (hstream : p ++ reads.flatten = serverMotd ++ rest ++ ending) :
    (∃ e c', (loginReads userName reads).run c = (.error e, c')) ∨
      ((serverMotd ++ rest ++ ending).length < bufLimit ∧
        ∃ c', (loginReads userName reads).run c = (.ok (), c') ∧
          c'.printed = c.printed ++
            [printedFor (serverMotd ++ rest) (reads.getLast hreads).length]) := by
  have hfree : 0 ∉ serverMotd ++ rest ++ ending :=
    zero_notMem_frame (List.not_mem_append (by decide) h0)
  induction reads generalizing c p r with
  | nil => exact absurd rfl hreads
  | cons b bs ih =>
      obtain ⟨hb, hbs⟩ := List.forall_mem_cons.mp hlen
      have hopen : ¬c.state = .done := by rw [hstate]; decide
      have hp : 0 ∉ p := fun h => hfree (hstream ▸ List.mem_append_left _ h)
      have hbread : IsRead b := by
        refine ⟨fun h => hfree (hstream ▸ List.mem_append_right p ?_), hb.2⟩
        exact List.mem_append_left _ h
      have hover : laidOver b r = b := laidOver_of_length_le (hcover b rfl)
      have hflat : (b :: bs).flatten = b ++ bs.flatten := rfl
      rw [hflat, ← List.append_assoc] at hstream
      rw [loginReads, Eff.run_get_bind, if_neg hopen]
      by_cases hq : Manageable (p ++ laidOver b r)
      swap
      · obtain ⟨e, c', hrun⟩ := run_loginRead_of_not hbuf hread hp hlim hbread hr hq userName
        exact .inl ⟨e, c', by rw [Eff.run_bind_error hrun]⟩
      rw [hover] at hq
      by_cases hlast : bs = []
      · -- the frame is complete
        subst hlast
        rw [List.flatten_nil, List.append_nil] at hstream
        have hrun := run_loginRead_some hbuf hread hp hlim hbread hr (by rwa [hover])
          (by rwa [hover]) userName
        have hprint := run_loginString_motd_printed
          (c := { c with buf := .of [], readBuf := readBuf (laidOver b r) })
            hstate h0 userName b.length
        rw [hprint] at hrun
        refine .inr ⟨by rw [← hstream]; exact hq.2, _, by rw [Eff.run_bind_ok hrun]; rfl, rfl⟩
      · have hmore : bs.flatten ≠ [] := by
          obtain ⟨d, ds, rfl⟩ := List.exists_cons_of_ne_nil hlast
          simp [(hbs d (by simp)).1]
        have hunfinished : ¬ending <:+ p ++ b := by
          rw [← hstream] at honce
          rw [honce.isSuffix_iff]
          exact hmore
        have hrun :=
          run_loginRead_none hbuf hread hp hlim hbread hr (by rwa [hover]) (by rwa [hover])
          userName
        rw [hover] at hrun
        rw [Eff.run_bind_ok hrun, List.getLast_cons hlast]
        exact ih (c := { c with buf := .of (p ++ b), readBuf := readBuf [] })
          hlast hbs hstate rfl rfl
          ⟨by simp, by decide⟩ (fun _ _ => Nat.zero_le _) hq.2 hstream

/-! ## The message -/

theorem IsBody.motdBody {t : Bytes} (ht : IsBody t) : IsBody (motdBody t) :=
  ⟨List.not_mem_append (by decide) (List.not_mem_cons_of_ne_of_not_mem (by decide) ht.1),
    List.not_mem_append (by decide) (List.not_mem_cons_of_ne_of_not_mem (by decide) ht.2)⟩

/-- `MOTD`, a blank, the text and the ending. -/
theorem length_motdBody_append (t : Bytes) : (motdBody t ++ ending).length = t.length + 9 := by
  have hverb : serverMotd.length = 4 := by decide
  unfold motdBody
  simp only [List.length_append, List.length_cons, hverb, length_ending]
  omega

/-- The text is printed where the last read has three bytes more than it. -/
theorem length_eq_of_printedFor {t : Bytes} {n : ℕ} (hn : n ≤ t.length + 9)
    (hlim : (motdBody t ++ ending).length < bufLimit)
    (hle : (printedFor (motdBody t) n).2 ≤ (printedFor (motdBody t) n).1.length)
    (htake : (printedFor (motdBody t) n).1.take (printedFor (motdBody t) n).2 = cells t) :
    n = t.length + 3 := by
  have hverb : (serverMotd.length : ℤ) = 4 := by decide
  have hlen := congrArg List.length htake
  rw [List.length_take, Nat.min_eq_left hle, length_cells] at hlen
  rw [length_motdBody_append] at hlim
  unfold printedFor at hlen
  dsimp only at hlen
  unfold sizeModulus bufLimit at *
  omega

/-- The first read goes over the approval, and is whole where it is as long. -/
theorem MotdExact.length_le {userName : Block} {c : Login} {t b : Bytes} {bs : List Bytes}
    (h : MotdExact userName c t (b :: bs)) (hc : c.AwaitsApproval) (hb : IsRead b) :
    approvalFrame.length ≤ b.length := by
  obtain ⟨c', hrun, hstr⟩ := h.given [] b bs rfl
  rw [hc.run_loginReads] at hrun
  obtain rfl : { c with state := .motd, readBuf := readBuf approvalFrame } = c' :=
    congrArg Prod.snd hrun
  have hover := hb.laidOver isRead_approvalFrame
  rw [run_fill rfl hb.2 isRead_approvalFrame.2] at hstr
  dsimp only at hstr
  rw [cstr_readBuf hover.1 hover.2] at hstr
  have hlen := congrArg List.length (Except.ok.inj hstr)
  rw [length_laidOver] at hlen
  omega

/-- **The message of the day** is printed exactly for no text and no cutting of its frame: either
what is left of the approval is given to `process_string`, or the length of the last read is not
that of the text. -/
theorem motdExact_never (userName : Block) {c : Login} {t : Bytes} {reads : List Bytes}
    (hc : c.AwaitsApproval) (ht : IsBody t) (hcut : CutInto (motdBody t ++ ending) reads) :
    ¬MotdExact userName c t reads := by
  intro h
  have h0 : 0 ∉ (32 :: t : Bytes) := List.not_mem_cons_of_ne_of_not_mem (by decide) ht.1
  have hnonempty : reads ≠ [] := by
    rintro rfl
    have hlen := congrArg List.length hcut.flatten_eq
    rw [length_motdBody_append] at hlen
    simp at hlen
  obtain ⟨b, bs, rfl⟩ := List.exists_cons_of_ne_nil hnonempty
  have hb : IsRead b := hcut.isRead (zero_notMem_frame ht.motdBody.1) b (by simp)
  have hfirst := h.length_le hc hb
  obtain ⟨c', p, n, hrun, hprinted, hle, htake⟩ := h.printed
  rw [hc.run_loginReads] at hrun
  rcases run_loginReads_motd h0 ht.motdBody.endsOnce userName hnonempty
    (fun d hd => ⟨hcut.ne_nil d hd, hcut.length_lt d hd⟩)
    (c := { c with state := .motd, readBuf := readBuf approvalFrame }) (p := []) rfl hc.buf rfl
    isRead_approvalFrame (by simpa using hfirst) (by decide) hcut.flatten_eq with
    ⟨e, c₁, herror⟩ | ⟨hlim, c₁, hok, hprint⟩
  · rw [hrun] at herror
    cases herror
  rw [hrun] at hok
  obtain rfl : c' = c₁ := congrArg Prod.snd hok
  have hpair : (p, n) = printedFor (motdBody t) ((b :: bs).getLast hnonempty).length := by
    rw [hprinted] at hprint
    exact List.singleton_inj.mp (List.append_cancel_left hprint)
  obtain ⟨rfl, rfl⟩ := Prod.mk.inj hpair
  have hsum := congrArg List.length hcut.flatten_eq
  rw [length_motdBody_append, List.flatten_cons, List.length_append] at hsum
  have hseven : approvalFrame.length = 7 := by decide
  by_cases hlast : bs = []
  · -- in one read: the length goes past the block
    subst hlast
    simp only [List.flatten_nil, List.length_nil] at hsum
    have hthree := length_eq_of_printedFor (t := t) (n := b.length) (by omega) hlim hle htake
    omega
  · -- in several: the last read is too short
    have hend : (bs.getLast hlast).length ≤ bs.flatten.length := by
      conv_rhs => rw [← List.dropLast_append_getLast hlast]
      simp
    rw [List.getLast_cons hlast] at hle htake
    have hthree :=
      length_eq_of_printedFor (t := t) (n := (bs.getLast hlast).length) (by omega) hlim hle
      htake
    omega

/-- The login at its `select` in state 3. -/
private def awaiting : Login := ⟨.of [], readBuf [], .approval, [], []⟩

private theorem awaitsApproval_awaiting : awaiting.AwaitsApproval := ⟨rfl, rfl, rfl⟩

private theorem isBody_hi : IsBody (encode ['h', 'i']) := ⟨by decide, by decide⟩

/-- `hi` in one read. -/
theorem motdExact_never_hi :
    ¬MotdExact (textBlock [97] 19) awaiting (encode ['h', 'i'])
    [motdBody (encode ['h', 'i']) ++ ending] :=
  motdExact_never _ awaitsApproval_awaiting isBody_hi ⟨by simp, by decide, by decide⟩

/-- A message of which the first byte comes alone: `process_string` is given the approval with
another first letter. -/
theorem not_motdExact : ¬∀ (userName : Block) (c : Login) (t : Bytes) (reads : List Bytes),
    c.AwaitsApproval → IsBody t → CutInto (motdBody t ++ ending) reads →
      MotdExact userName c t reads := by
  intro hall
  have hcut : CutInto (motdBody (encode ['h', 'i']) ++ ending)
      [[77], (motdBody (encode ['h', 'i']) ++ ending).drop 1] := ⟨by decide, by decide, by decide⟩
  have h := hall (textBlock [97] 19) awaiting _ _ awaitsApproval_awaiting isBody_hi hcut
  exact absurd (h.length_le awaitsApproval_awaiting ⟨by decide, by decide⟩) (by decide)

end ME2U.Client
