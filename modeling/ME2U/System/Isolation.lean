import ME2U.System.Attribution

/-!
# What a message leaves in the receive buffer

A message may hold any characters but carriage returns; the server hands it on as it is. The client
takes what it reads for a C string, and so does not see what comes behind a NUL, the ending of the
frame included. Such a frame stays pending, and the next one is glued to it.

* `isolated_iff_of_cstr`: a frame leaves nothing behind iff what the client sees of it is
  terminated.
* `isolated_iff`: that is so iff neither the name nor the message has a NUL (or the name has
  `ENDING` before its first one).
-/

namespace ME2U.System

open Client

/-- After the frame of the message nothing is pending, and what is read next is treated as if the
frame had not been there; frames that come in one read each are returned as they were sent. -/
def Isolated (s m : Str) : Prop :=
  ∃ ret buf, (processString (readBuf (fromFrame s m))).run (.of []) = (.ok ret, buf) ∧
    buf.text = .ok [] ∧
    (∀ reads, (processReads reads).run buf = (processReads reads).run (.of [])) ∧
    ∀ bodies : List Bytes, (∀ body ∈ bodies, IsRead (body ++ Client.ending)) →
      ∃ buf', (processReads (bodies.map (· ++ Client.ending))).run buf =
        (.ok (bodies.map some), buf')

/-- Frames that come in one read each, behind an empty buffer. -/
theorem run_processReads_frames {bodies : List Bytes}
    (h : ∀ body ∈ bodies, IsRead (body ++ Client.ending)) :
    (processReads (bodies.map (· ++ Client.ending))).run (.of []) =
      (.ok (bodies.map some), .of []) := by
  induction bodies with
  | nil => rfl
  | cons body bodies ih =>
      have hread := h body (by simp)
      have hbody : ∀ b ∈ some body, 0 ∉ b := by
        intro b hb h0
        obtain rfl : body = b := Option.some.inj hb
        exact hread.1 (List.mem_append_left _ h0)
      have hlen : (body ++ Client.ending).length < bufLimit := by
        have hlt := hread.2
        unfold maxline at hlt
        unfold bufLimit
        omega
      have hcall := run_processString_of_manageable (p := []) (by simp) hread (by decide)
        ⟨by simp, hlen⟩
      rw [receive_of_isSuffix (List.nil_append _)] at hcall
      rw [List.map_cons, List.map_cons, processReads, Eff.run_bind_ok hcall,
        stringAt_map_textBlock hbody, Eff.run_lift_ok_bind,
        Eff.run_bind_ok (ih fun b hb => h b (by simp [hb]))]
      rfl

section Frame

variable {s m : Str} {x : Bytes} (hcstr : cstr (readBuf (fromFrame s m)) = .ok x)
  (h4 : 4 ≤ x.length) (hlen : x.length < maxline)
include hcstr h4 hlen

/-- What one read of the frame does, by the part of it that the client sees. -/
theorem run_processString_fromFrame :
    (processString (readBuf (fromFrame s m))).run (.of []) =
      (.ok ((receive Client.ending [] x).1.map (textBlock · 4)),
        .of (receive Client.ending [] x).2) := by
  have hlim : ¬bufLimit ≤ ([] ++ x).length := by
    unfold maxline at hlen
    rw [List.nil_append, bufLimit]
    omega
  have hfour : ¬([] ++ x).length < 4 := by
    rw [List.nil_append]
    omega
  rw [run_processString (by simp) hcstr hlen (by decide), if_neg hlim, if_neg hfour]

/-- A frame leaves nothing behind iff the part of it that the client sees is terminated. -/
theorem isolated_iff_of_cstr : Isolated s m ↔ Client.ending <:+ x := by
  have hrun := run_processString_fromFrame hcstr h4 hlen
  constructor
  · rintro ⟨ret, buf, hcall, htext, -⟩
    by_contra hopen
    -- the text stays pending
    rw [hrun, receive_of_not_isSuffix hopen] at hcall
    obtain rfl := (Prod.mk.inj hcall).2
    rw [List.nil_append, RecvBuf.text_of (zero_notMem_of_cstr hcstr)] at htext
    obtain rfl := Except.ok.inj htext
    exact absurd h4 (by decide)
  · rintro ⟨body, rfl⟩
    rw [receive_of_isSuffix (List.nil_append _)] at hrun
    exact ⟨_, _, hrun, RecvBuf.text_of (by simp), fun _ => rfl,
      fun bodies hbodies => ⟨_, run_processReads_frames hbodies⟩⟩

end Frame

/-! ## The part of the frame that the client sees -/

theorem cstr_readBuf_append_zero {x : Bytes} (hx : 0 ∉ x) (y : Bytes) :
    cstr (readBuf (x ++ 0 :: y)) = .ok x := by
  have hsplit : readBuf (x ++ 0 :: y) =
      cells x ++ some 0 :: textBlock y (maxline - (x ++ 0 :: y).length) := by
    simp [readBuf, textBlock, cells]
  rw [hsplit]
  exact cstr_cells_append hx _

/-- A frame with a NUL in it leaves nothing behind iff it is terminated before that. -/
theorem isolated_iff_of_eq_append_zero {s m : Str} {x y : Bytes}
    (hsplit : fromFrame s m = x ++ 0 :: y)
    (hx : 0 ∉ x) (h4 : 4 ≤ x.length) (hlen : (fromFrame s m).length < maxline) :
    Isolated s m ↔ Client.ending <:+ x := by
  have hcstr : cstr (readBuf (fromFrame s m)) = .ok x := by
    rw [hsplit]
    exact cstr_readBuf_append_zero hx y
  rw [hsplit, List.length_append] at hlen
  exact isolated_iff_of_cstr hcstr h4 (by omega)

/-- What comes before the first NUL. -/
theorem exists_of_zero_mem_encode {s : Str} (h : '\x00' ∈ s) :
    ∃ y, encode s = encode (s.takeWhile (· ≠ '\x00')) ++ 0 :: y ∧
      0 ∉ encode (s.takeWhile (· ≠ '\x00')) := by
  obtain ⟨x, y, rfl, hx⟩ := List.eq_append_cons_of_mem h
  have htake : (x ++ '\x00' :: y).takeWhile (· ≠ '\x00') = x := by
    rw [List.takeWhile_append_of_pos, List.takeWhile_cons_of_neg (by simp), List.append_nil]
    intro c hc
    rw [decide_eq_true_eq]
    rintro rfl
    exact hx hc
  rw [htake]
  exact ⟨encode y, by rw [encode_append]; rfl, mt zero_mem_encode.mp hx⟩

section Seen

variable {s m : Str} (hlen : (fromFrame s m).length < maxline)
include hlen

/-- Without a NUL the client sees the whole frame. -/
theorem isolated_of_notMem (hs : '\x00' ∉ s) (hm : '\x00' ∉ m) : Isolated s m := by
  have hbody : 0 ∉ msgFrom ++ 32 :: (encode s ++ 32 :: encode m) :=
    zero_notMem_words (by decide)
      (zero_notMem_words (mt zero_mem_encode.mp hs) (mt zero_mem_encode.mp hm))
  have hframe : 0 ∉ fromFrame s m := by
    rw [fromFrame_eq]
    exact zero_notMem_frame hbody
  have hsuf : Client.ending <:+ fromFrame s m := by
    rw [fromFrame_eq]
    exact List.suffix_append _ _
  exact (isolated_iff_of_cstr (cstr_readBuf hframe hlen) hsuf.length_le hlen).mpr hsuf

/-- The client sees the frame up to the first NUL of the name. -/
theorem isolated_iff_of_mem_name (hs : '\x00' ∈ s) :
    Isolated s m ↔ terminatingSequence <:+ s.takeWhile (· ≠ '\x00') := by
  obtain ⟨y, hy, hx⟩ := exists_of_zero_mem_encode hs
  generalize s.takeWhile (· ≠ '\x00') = x at hy hx ⊢
  have hsplit : fromFrame s m =
      (msgFrom ++ 32 :: encode x) ++ 0 :: (y ++ 32 :: encode m ++ Client.ending) := by
    rw [fromFrame_eq, hy]
    simp
  have h4 : 4 ≤ (msgFrom ++ 32 :: encode x).length := by
    rw [List.length_append]
    exact Nat.le_add_right 4 _
  rw [isolated_iff_of_eq_append_zero hsplit (zero_notMem_words (by decide) hx) h4 hlen,
    isSuffix_append_cons_iff (by decide), ending_eq]
  exact isSuffix_encode_iff (by decide) (by decide)

/-- The client sees the frame up to the first NUL of the message. -/
theorem not_isolated_of_mem_message (hs : '\x00' ∉ s) (hm : '\r' ∉ m) (h0 : '\x00' ∈ m) :
    ¬Isolated s m := by
  obtain ⟨y, hy, hx⟩ := exists_of_zero_mem_encode h0
  have hcr : '\r' ∉ m.takeWhile (· ≠ '\x00') := fun h => hm ((List.takeWhile_subset _) h)
  generalize m.takeWhile (· ≠ '\x00') = x at hy hx hcr
  have hsplit : fromFrame s m =
      (msgFrom ++ 32 :: (encode s ++ 32 :: encode x)) ++ 0 :: (y ++ Client.ending) := by
    rw [fromFrame_eq, hy]
    simp
  have hseen : 0 ∉ msgFrom ++ 32 :: (encode s ++ 32 :: encode x) :=
    zero_notMem_words (by decide) (zero_notMem_words (mt zero_mem_encode.mp hs) hx)
  have h4 : 4 ≤ (msgFrom ++ 32 :: (encode s ++ 32 :: encode x)).length := by
    rw [List.length_append]
    exact Nat.le_add_right 4 _
  rw [isolated_iff_of_eq_append_zero hsplit hseen h4 hlen, isSuffix_append_cons_iff (by decide),
    isSuffix_append_cons_iff (by decide)]
  intro hsuf
  exact hcr (cr_mem_encode.mp (hsuf.subset (by decide)))

end Seen

/-- **Which messages leave nothing behind**: for every message without carriage returns whose frame
fits one read, the later frames are as if it had not been read iff there is no NUL in it or in the
name of its sender. (A name may also be cut off right behind an `ENDING` of its own.) -/
theorem isolated_iff (s m : Str) (hm : '\r' ∉ m) (hlen : (fromFrame s m).length < maxline) :
    Isolated s m ↔ '\x00' ∉ s ∧ '\x00' ∉ m ∨
      '\x00' ∈ s ∧ terminatingSequence <:+ s.takeWhile (· ≠ '\x00') := by
  by_cases hs : '\x00' ∈ s
  · rw [isolated_iff_of_mem_name hlen hs]
    simp [hs]
  by_cases h0 : '\x00' ∈ m
  · have hno := not_isolated_of_mem_message hlen hs hm h0
    simp [hs, h0, hno]
  · have hyes := isolated_of_notMem hlen hs h0
    simp [hs, h0, hyes]

/-- A message without a NUL. -/
theorem isolated_iff_two_words : Isolated ['a'] ['h', 'i', ' ', 'b'] :=
  (isolated_iff ['a'] ['h', 'i', ' ', 'b'] (by decide) (by decide)).mpr (.inl (by decide))

/-- The frame of a message with a NUL is glued to the next one. -/
theorem not_isolated :
    ¬∀ s m : Str, '\r' ∉ m → (fromFrame s m).length < maxline → Isolated s m := by
  intro hall
  exact not_isolated_of_mem_message (s := ['a']) (m := ['x', '\x00', 'y']) (by decide) (by decide)
    (by decide) (by decide) (hall _ _ (by decide) (by decide))

end ME2U.System
