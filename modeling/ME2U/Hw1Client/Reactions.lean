import ME2U.Hw1Client.Talk

/-!
# What `hw1_client` does with any string

Whatever a `read` returns, `regular_chat` and `login_proc` look at the string at the beginning of
`buf`, up to the first NUL, and tell the verbs and the commands by how it starts. Where `calloc`
gives some room behind its blocks, that string alone decides what is sent and how the client goes
on.

* `Got`, `got_cases`: what a `read` gives, and where there is no string.
* `serverReaction`, `inputReaction`: what is done with a string of the server and with a line.
* `reacts_chatIteration`: an iteration of `regular_chat` does that.
-/

namespace ME2U.Hw1Client

open Client (Halt ReadResult ending length_ending mem run_mem_ok_bind
  run_mem_error_bind helpString toFrame userHelp userListu userChat userLogout msgTo)

/-! ## The string in a block -/

section Strings

variable {blk : Block} {s : Bytes}

/-- The length of a string in its block -/
theorem strlen_of_cstr (h : cstr blk = .ok s) : strlen blk = .ok s.length := by
  rw [strlen, h]
  rfl

/-- The string from a byte of it on. -/
theorem cstr_drop_of_cstr (h : cstr blk = .ok s) {n : ℕ} (hn : n ≤ s.length) :
    cstr (blk.drop n) = .ok (s.drop n) := by
  obtain ⟨h0, q, rfl⟩ := exists_of_cstr h
  have hdrop : (cells s ++ some 0 :: q).drop n = cells (s.drop n) ++ some 0 :: q := by
    rw [List.drop_append_of_le_length (by rwa [length_cells]), cells, cells, List.map_drop]
  rw [hdrop]
  exact cstr_cells_append (fun hmem => h0 (List.mem_of_mem_drop hmem)) q

/-- A string in its block begins with a prefix if its bytes do. -/
theorem startsWith_of_cstr (h : cstr blk = .ok s) (pre : Bytes) :
    startsWith blk pre = .ok (decide (pre <+: s)) := by
  obtain ⟨h0, q, rfl⟩ := exists_of_cstr h
  unfold startsWith
  rw [strlen_of_cstr h]
  show (if s.length < pre.length then (.ok false : Except Fault Bool) else _) = _
  by_cases hshort : s.length < pre.length
  · have hno : ¬pre <+: s := fun hpre => absurd hpre.length_le (Nat.not_le.mpr hshort)
    rw [if_pos hshort, decide_eq_false hno]
  · rw [if_neg hshort, strncmpEq_cells h0 (Nat.not_lt.mp hshort), List.take_length]
    by_cases hpre : pre <+: s
    · rw [decide_eq_true hpre, List.prefix_iff_eq_take.mp hpre]
      simp
    · rw [decide_eq_false hpre]
      have hne : s.take pre.length ≠ pre := fun heq => hpre (List.prefix_iff_eq_take.mpr heq.symm)
      simpa using hne

/-- The text in a block from a byte of it, or of the zeros behind it, on. -/
theorem cstr_drop_textBlock (h0 : 0 ∉ s) {n k : ℕ} (hk : k ≠ 0) (hn : n < s.length + k) :
    cstr ((textBlock s k).drop n) = .ok (s.drop n) := by
  have hdrop : (textBlock s k).drop n = textBlock (s.drop n) (k - (n - s.length)) := by
    rw [textBlock, List.drop_append, length_cells, textBlock, cells, cells,
      List.map_drop, zeros, zeros, List.drop_replicate]
  have hroom : k - (n - s.length) ≠ 0 := by omega
  rw [hdrop]
  exact cstr_textBlock (fun hmem => h0 (List.mem_of_mem_drop hmem)) hroom

/-- The bytes of a token are bytes of the text. -/
theorem mem_of_mem_strtokFrom {sep : UInt8} {tok w : Bytes} {b : UInt8} (hb : b ∈ w)
    (h : w ∈ strtokFrom sep tok s) : b ∈ tok ∨ b ∈ s := by
  induction s generalizing tok with
  | nil =>
      rw [strtokFrom] at h
      split_ifs at h
      · cases h
      · exact .inl (List.mem_singleton.mp h ▸ hb)
  | cons a s ih =>
      rw [strtokFrom] at h
      split_ifs at h
      · exact (ih h).imp (fun h => by cases h) (List.mem_cons_of_mem a)
      · rcases List.mem_cons.mp h with rfl | h
        · exact .inl hb
        · exact (ih h).imp (fun h => by cases h) (List.mem_cons_of_mem a)
      · rcases ih h with h | h
        · refine (List.mem_append.mp h).imp_right fun h => ?_
          rw [List.mem_singleton.mp h]
          exact List.mem_cons_self
        · exact .inr (List.mem_cons_of_mem a h)

/-- The copy of a string in a block of its length and the room behind that. -/
theorem memcpy_of_cstr (h : cstr blk = .ok s) (slack : ℕ) :
    memcpy (calloc (s.length + slack)) blk s.length = .ok (textBlock s slack) := by
  obtain ⟨-, q, rfl⟩ := exists_of_cstr h
  have hroom : s.length + slack - s.length = slack := by omega
  rw [memcpy_calloc rfl (Nat.le_add_right _ _), hroom]

end Strings

/-! ## What a `read` gives -/

/-- What there is in `buf` after a `read`. -/
inductive Got
  /-- A string, up to the first NUL. -/
  | string (s : Bytes)
  /-- The stream has ended. -/
  | eof
  /-- The bytes fill `buf`, and there is no NUL. -/
  | overrun
  deriving DecidableEq

/-- What a `read` gives. -/
def got : ReadResult → Got
  | .eof => .eof
  | .failed => .string []
  | .data b => if b.length = maxline ∧ 0 ∉ b then .overrun else .string (b.takeWhile (· ≠ 0))

/-- The bytes that were read end at the first NUL among them. -/
theorem cstr_cells_takeWhile {b : Bytes} (h0 : 0 ∈ b) :
    cstr (cells b) = .ok (b.takeWhile (· ≠ 0)) := by
  induction b with
  | nil => cases h0
  | cons a b ih =>
      by_cases ha : a = 0
      · subst ha
        rfl
      · have hrest := ih ((List.mem_cons.mp h0).resolve_left (Ne.symm ha))
        simp only [cells, List.map_cons, cstr, if_neg ha] at hrest ⊢
        rw [hrest, List.takeWhile_cons_of_pos (by simpa using ha)]
        rfl

/-- **What is in `buf`** after a `read` of at most `MAXLINE` bytes. -/
theorem got_cases {r : ReadResult} (hr : r.Fits) :
    (r = .eof ∧ got r = .eof) ∨
      (r ≠ .eof ∧ got r = .overrun ∧ cstr (bufAfter r) = .error .outOfBounds) ∨
      r ≠ .eof ∧ ∃ s, got r = .string s ∧ cstr (bufAfter r) = .ok s := by
  cases r with
  | eof => exact .inl ⟨rfl, rfl⟩
  | failed => exact .inr (.inr ⟨nofun, [], rfl, rfl⟩)
  | data b =>
      have hlen : b.length ≤ maxline := hr.2
      dsimp only [got, bufAfter]
      by_cases hfull : b.length = maxline
      · have hroom : maxline - b.length = 0 := by omega
        rw [hroom]
        by_cases h0 : 0 ∈ b
        · rw [if_neg fun h => h.2 h0]
          refine .inr (.inr ⟨nofun, _, rfl, ?_⟩)
          rw [textBlock, zeros, List.replicate_zero, List.append_nil]
          exact cstr_cells_takeWhile h0
        · rw [if_pos ⟨hfull, h0⟩]
          exact .inr (.inl ⟨nofun, rfl, cstr_cells_outOfBounds h0⟩)
      · rw [if_neg fun h => hfull h.1]
        have hlt : b.length < maxline := lt_of_le_of_ne hlen hfull
        obtain ⟨k, hk⟩ := Nat.exists_eq_succ_of_ne_zero (Nat.sub_ne_zero_of_lt hlt)
        refine .inr (.inr ⟨nofun, _, rfl, ?_⟩)
        rw [hk]
        exact cstr_textBlock_takeWhile b k

/-- What a `read` of at most `MAXLINE` bytes can give. -/
def Got.Possible : Got → Prop
  | .string s => 0 ∉ s ∧ s.length < maxline
  | _ => True

/-- What a read gives is something that the client can receive. -/
theorem got_possible {r : ReadResult} (hr : r.Fits) : (got r).Possible := by
  rcases got_cases hr with ⟨-, hgot⟩ | ⟨-, hgot, -⟩ | ⟨hne, s, hgot, hbuf⟩
  · rw [hgot]
    trivial
  · rw [hgot]
    trivial
  · have hlen : (bufAfter r).length = maxline := by
      cases r with
      | eof => exact absurd rfl hne
      | failed =>
          show (textBlock [] maxline).length = maxline
          rw [length_textBlock, List.length_nil, Nat.zero_add]
      | data b =>
          have hle : b.length ≤ maxline := hr.2
          rw [bufAfter, length_textBlock]
          omega
    rw [hgot]
    exact ⟨zero_notMem_of_cstr hbuf, hlen ▸ length_lt_of_cstr hbuf⟩

/-- All of that can be read. -/
theorem exists_got {g : Got} (hg : g.Possible) : ∃ r : ReadResult, r.Fits ∧ got r = g := by
  match g with
  | .eof => exact ⟨.eof, trivial, rfl⟩
  | .overrun =>
      have hlen : (List.replicate maxline (1 : UInt8)).length = maxline := List.length_replicate
      have hfree : (0 : UInt8) ∉ List.replicate maxline 1 := fun h =>
        absurd (List.eq_of_mem_replicate h) (by decide)
      refine ⟨.data (List.replicate maxline 1), ⟨fun h => ?_, hlen.le⟩, ?_⟩
      · rw [h] at hlen
        cases hlen
      · rw [got, if_pos ⟨hlen, hfree⟩]
  | .string s =>
      obtain ⟨h0, hlen⟩ := hg
      by_cases hempty : s = []
      · exact ⟨.failed, trivial, hempty ▸ rfl⟩
      · refine ⟨.data s, ⟨hempty, hlen.le⟩, ?_⟩
        have hne : ∀ b ∈ s, decide (b ≠ 0) = true := fun b hb => decide_eq_true fun h => h0 (h ▸ hb)
        have hall : s.takeWhile (· ≠ 0) = s := calc
          s.takeWhile (· ≠ 0) = (s ++ []).takeWhile (· ≠ 0) := by rw [List.append_nil]
          _ = s ++ [].takeWhile (· ≠ 0) := List.takeWhile_append_of_pos hne
          _ = s := List.append_nil s
        rw [got, if_neg fun h => hlen.ne h.1, hall]

/-! ## Reactions -/

/-- What an iteration does. -/
structure Reaction where
  /-- What is sent. -/
  sends : List Bytes
  /-- Whether the input is shut. -/
  shuts : Bool
  /-- Whether `regular_chat` returns, unless the process stops. -/
  ends : Except Halt Bool

/-- The chat goes on, and nothing is sent. -/
def Reaction.nothing : Reaction := ⟨[], false, .ok false⟩

/-- What is done with a string of the server.
Source: `client.c` `regular_chat` (lines 290–338) -/
def serverReaction (s : Bytes) : Reaction :=
  if s = [] ∨ [13, 10] <+: s then .nothing
  else if serverListUser <+: s ∨ confirmMsgTo <+: s then .nothing
  else if msgFrom <+: s then
    match (strtok 32 (s.drop (msgFrom.length + 1))).head? with
    | none => ⟨[], false, .error (.fault .nullPointer)⟩
    | some w => ⟨[confirmMsgFrom ++ 32 :: (w ++ ending)], false, .ok false⟩
  else if noUsr <+: s ∨ serverByeBrod <+: s then .nothing
  else if serverByeAck <+: s then ⟨[], false, .ok true⟩
  else ⟨[], false, .error (.error "Server sent msg that cannot be understood")⟩

/-- What is done with a line.
Source: `client.c` `regular_chat` (lines 347–383) -/
def inputReaction (s : Bytes) : Reaction :=
  if ¬[47] <+: s ∨ userHelp <+: s then .nothing
  else if userListu <+: s then ⟨[clientListUser ++ ending], false, .ok false⟩
  else if userChat <+: s then ⟨[msgTo ++ s.drop userChat.length ++ ending], false, .ok false⟩
  else if userLogout <+: s then ⟨[clientBye ++ ending], true, .ok false⟩
  else ⟨[], true, .error (.error "Client sent msg that cannot be understood")⟩

/-- The same where the input may be shut: the first write raises `SIGPIPE` then. -/
def Reaction.behind (shut : Bool) (ρ : Reaction) : Reaction :=
  if shut ∧ ρ.sends ≠ [] then ⟨[], false, .error .sigpipe⟩ else ρ

/-- With the socket open nothing changes. -/
theorem Reaction.behind_false (ρ : Reaction) : ρ.behind false = ρ := if_neg fun h => nomatch h.1

/-- Where nothing is sent, it makes no difference whether the input is shut. -/
theorem Reaction.behind_of_sends_eq_nil {ρ : Reaction} (h : ρ.sends = []) (shut : Bool) :
    ρ.behind shut = ρ :=
  if_neg fun hsend => hsend.2 h

/-- Behind the shutdown a write ends the client, and nothing else changes. -/
theorem Reaction.behind_cases (shut : Bool) (ρ : Reaction) :
    ρ.behind shut = ρ ∨ shut = true ∧ ρ.behind shut = ⟨[], false, .error .sigpipe⟩ := by
  unfold Reaction.behind
  split_ifs with h
  · exact .inr ⟨h.1, rfl⟩
  · exact .inl rfl

/-- From `c`, a computation has done so. -/
def Reacts (c : Chat) (out : Except Halt Bool × Chat) (ρ : Reaction) : Prop :=
  ∃ xs printed, xs.map bytesOf = ρ.sends ∧
    out = (ρ.ends, ⟨c.stdineof || ρ.shuts, c.sent ++ xs, c.printed ++ printed⟩)

/-- The computation returns `a`, and prints at most. -/
def Prints {α : Type} (m : ChatM α) (a : α) : Prop :=
  ∀ c, ∃ os, m.run c = (.ok a, { c with printed := c.printed ++ os })

namespace Prints

variable {α β : Type} {m : ChatM α} {a : α}

theorem pure (a : α) : Prints (Pure.pure a) a := fun c => ⟨[], by simp⟩

theorem output (o : Output) : Prints (output o) () := fun _ => ⟨[o], rfl⟩

theorem bind {f : α → ChatM β} {b : β} (h : Prints m a) (h' : Prints (f a) b) :
    Prints (m >>= f) b := by
  intro c
  obtain ⟨os, hos⟩ := h c
  obtain ⟨os', hos'⟩ := h' { c with printed := c.printed ++ os }
  refine ⟨os ++ os', ?_⟩
  rw [Eff.run_bind_ok hos, hos', List.append_assoc]

/-- Every token is printed. -/
theorem outputLines (tokens : List Bytes) : Prints (outputLines tokens) () :=
  fun c => ⟨_, run_outputLines tokens c⟩

/-- An error is printed -/
theorem outputError (text : Bytes) : Prints (outputError text) () :=
  (output _).bind ((output _).bind (output _))

/-- and so is a name. -/
theorem outputName {buf : Block} {s verb : Bytes} (hbuf : cstr buf = .ok s) (hverb : verb <+: s) :
    Prints (outputName verb buf) () := by
  intro c
  unfold Hw1Client.outputName
  rw [strlen_of_cstr (cstr_drop_of_cstr hbuf hverb.length_le), run_mem_ok_bind]
  exact output _ c

end Prints

/-- What prints at most does nothing. -/
theorem Reacts.of_prints {m : ChatM Bool} (h : Prints m false) (c : Chat) (shut : Bool) :
    Reacts c (m.run c) (Reaction.nothing.behind shut) := by
  obtain ⟨os, hos⟩ := h c
  rw [Reaction.behind_of_sends_eq_nil rfl]
  exact ⟨[], os, rfl, by rw [hos]; simp [Reaction.nothing]⟩

/-- A write, when something was printed, and what is done behind it. -/
theorem Reacts.of_send {p : Block} {n : ℕ} {w : Bytes} (hw : bytesOf (p, n) = w)
    (m : ChatM Bool) (shuts : Bool)
    (hm : ∀ c, m.run c = (.ok false, { c with stdineof := c.stdineof || shuts })) (c : Chat)
    (os : List Output) :
    Reacts c ((send p n >>= fun _ => m).run { c with printed := c.printed ++ os })
      (Reaction.behind c.stdineof ⟨[w], shuts, .ok false⟩) := by
  obtain ⟨shut, sent, printed⟩ := c
  cases shut with
  | false =>
      rw [Reaction.behind_false, Eff.run_bind_ok (run_send ⟨false, sent, printed ++ os⟩ p n rfl),
        hm]
      exact ⟨[(p, n)], os, by rw [List.map_singleton, hw], rfl⟩
  | true =>
      have hpipe : (send p n).run ⟨true, sent, printed ++ os⟩ =
          (.error .sigpipe, ⟨true, sent, printed ++ os⟩) := rfl
      rw [Eff.run_bind_error hpipe, Reaction.behind, if_pos ⟨rfl, List.cons_ne_nil _ _⟩]
      exact ⟨[], os, rfl, by simp⟩

section Reactions

variable {slack : ℕ} (hslack : 4 ≤ slack) {buf : Block} {s : Bytes}
    (hbuf : cstr buf = .ok s) (c : Chat)

include hslack hbuf in
/-- `FROM`: the first word behind the verb and one more byte is the name, if there is a word. -/
theorem reacts_fromUser (hfrom : msgFrom <+: s) :
    Reacts c ((fromUser slack buf >>= fun _ => (pure false : ChatM Bool)).run c)
      (Reaction.behind c.stdineof (match (strtok 32 (s.drop (msgFrom.length + 1))).head? with
        | none => ⟨[], false, .error (.fault .nullPointer)⟩
        | some w => ⟨[confirmMsgFrom ++ 32 :: (w ++ ending)], false, .ok false⟩)) := by
  have h0 := zero_notMem_of_cstr hbuf
  have hslack' : slack ≠ 0 := by omega
  have hlen : msgFrom.length + 1 < s.length + slack := by
    have hle := hfrom.length_le
    omega
  unfold fromUser
  rw [Eff.run_bind, strlen_of_cstr hbuf, run_mem_ok_bind, memcpy_of_cstr hbuf, run_mem_ok_bind,
    cstr_drop_textBlock h0 hslack' hlen, run_mem_ok_bind,
      cstr_drop_of_cstr hbuf hfrom.length_le, run_mem_ok_bind,
    Eff.run_bind_ok (run_output _ c)]
  cases hhead : (strtok 32 (s.drop (msgFrom.length + 1))).head? with
  | none =>
      rw [Reaction.behind_of_sends_eq_nil rfl]
      exact ⟨[], [.text (s.drop msgFrom.length)], rfl, by simp⟩
  | some w =>
      have hw0 : 0 ∉ w := fun hmem => by
        rcases mem_of_mem_strtokFrom hmem (List.mem_of_mem_head? hhead) with h | h
        · cases h
        · exact h0 (List.mem_of_mem_drop h)
      obtain ⟨x, hx, hreply⟩ := run_sendReply hslack'
        { c with printed := c.printed ++ [.text (s.drop msgFrom.length)] } hw0
      have hsend := Reacts.of_send hx (pure false) false (by simp) c
        [.text (s.drop msgFrom.length)]
      rw [Eff.run_bind] at hsend
      dsimp only
      rw [hreply]
      exact hsend

section Tests

variable {α : Type} {c} {pre : Bytes}

include hbuf in
/-- A test that succeeds. -/
theorem run_test_pos (h : pre <+: s) (m m' : ChatM α) :
    (mem (startsWith buf pre) >>= fun b => if b = true then m else m').run c = m.run c := by
  rw [startsWith_of_cstr hbuf, run_mem_ok_bind, decide_eq_true h, if_pos rfl]

include hbuf in
/-- A test that fails. -/
theorem run_test_neg (h : ¬pre <+: s) (m m' : ChatM α) :
    (mem (startsWith buf pre) >>= fun b => if b = true then m else m').run c = m'.run c := by
  rw [startsWith_of_cstr hbuf, run_mem_ok_bind, decide_eq_false h, if_neg (by decide)]

end Tests

include hbuf in
/-- The tests for a string that is skipped. -/
theorem run_blank (k : Bool → ChatM Bool) :
    (do
      let n ← mem (strlen buf)
      let blank ← if n = 0 then pure true else mem (startsWith buf [13, 10])
      let blank ← if blank then pure true else mem (startsWith buf ending)
      k blank).run c = (k (decide (s = [] ∨ [13, 10] <+: s))).run c := by
  rw [strlen_of_cstr hbuf, run_mem_ok_bind]
  by_cases hempty : s = []
  · rw [if_pos (List.length_eq_zero_iff.mpr hempty), Eff.run_pure_bind,
      decide_eq_true (.inl hempty)]
    rfl
  · rw [if_neg fun h => hempty (List.length_eq_zero_iff.mp h),
      startsWith_of_cstr hbuf, run_mem_ok_bind]
    by_cases hcrlf : [13, 10] <+: s
    · rw [decide_eq_true hcrlf, decide_eq_true (.inr hcrlf)]
      rfl
    · have hending : ¬ending <+: s := fun h => hcrlf ((show [13, 10] <+: ending by decide).trans h)
      rw [decide_eq_false hcrlf, decide_eq_false (not_or.mpr ⟨hempty, hcrlf⟩),
        startsWith_of_cstr hbuf, decide_eq_false hending]
      rfl

include hslack hbuf in
/-- **A string of the server** is answered so. -/
theorem reacts_serverChunk : Reacts c ((serverChunk slack buf).run c)
    ((serverReaction s).behind c.stdineof) := by
  unfold serverChunk serverReaction
  rw [run_blank hbuf]
  by_cases hblank : s = [] ∨ [13, 10] <+: s
  · rw [if_pos (decide_eq_true hblank), if_pos hblank]
    exact .of_prints (.pure false) c _
  rw [if_neg (by simpa using hblank), if_neg hblank]
  by_cases hutsil : serverListUser <+: s
  · rw [run_test_pos hbuf hutsil, if_pos (.inl hutsil), cstr_drop_of_cstr hbuf hutsil.length_le,
      run_mem_ok_bind]
    exact .of_prints (.bind (.outputLines _) (.pure false)) c _
  rw [run_test_neg hbuf hutsil]
  by_cases hot : confirmMsgTo <+: s
  · rw [run_test_pos hbuf hot, if_pos (.inr hot)]
    exact .of_prints (.bind (.output _) (.pure false)) c _
  rw [run_test_neg hbuf hot, if_neg (not_or.mpr ⟨hutsil, hot⟩)]
  by_cases hfrom : msgFrom <+: s
  · rw [run_test_pos hbuf hfrom, if_pos hfrom]
    exact reacts_fromUser hslack hbuf c hfrom
  rw [run_test_neg hbuf hfrom, if_neg hfrom]
  by_cases hedne : noUsr <+: s
  · rw [run_test_pos hbuf hedne, if_pos (.inl hedne)]
    exact .of_prints
      (.bind (.output _) (.bind (.outputName hbuf hedne) (.bind (.output _) (.pure false)))) c _
  rw [run_test_neg hbuf hedne]
  by_cases heyb : serverByeAck <+: s
  · have huoff : ¬serverByeBrod <+: s := fun h => by
      have hpre := List.prefix_of_prefix_length_le heyb h (by decide)
      revert hpre
      decide
    rw [run_test_pos hbuf heyb, if_neg (not_or.mpr ⟨hedne, huoff⟩), if_pos heyb,
      Reaction.behind_of_sends_eq_nil rfl]
    exact ⟨[], [], rfl, by simp⟩
  rw [run_test_neg hbuf heyb]
  by_cases huoff : serverByeBrod <+: s
  · rw [run_test_pos hbuf huoff, if_pos (.inr huoff)]
    exact .of_prints (.bind (.output _) (.bind (.outputName hbuf huoff) (.pure false))) c _
  rw [run_test_neg hbuf huoff, if_neg (not_or.mpr ⟨hedne, huoff⟩), if_neg heyb,
    hbuf, run_mem_ok_bind, Reaction.behind_of_sends_eq_nil rfl]
  obtain ⟨os, hos⟩ := Prints.outputError (encode (String.toList "Server sent >>") ++ s ++
    encode (String.toList "<<\n")) c
  rw [Eff.run_bind_ok hos, Eff.run_stop]
  exact ⟨[], os, rfl, by simp⟩

include hbuf in
/-- The test for the slash. -/
theorem strncmpEq_slash (hne : s ≠ []) : strncmpEq buf [47] 1 = .ok (decide ([47] <+: s)) := by
  obtain ⟨h0, q, rfl⟩ := exists_of_cstr hbuf
  obtain ⟨a, s, rfl⟩ := List.exists_cons_of_ne_nil hne
  rw [strncmpEq_cells h0 (Nat.succ_le_of_lt (List.length_pos_of_ne_nil hne))]
  by_cases ha : a = 47
  · subst ha
    simp
  · simp [ha, Ne.symm ha]

include hslack hbuf in
/-- **A line** is answered so. -/
theorem reacts_inputChunk :
    Reacts c ((inputChunk slack buf >>= fun _ => (pure false : ChatM Bool)).run c)
      ((inputReaction s).behind c.stdineof) := by
  unfold inputChunk inputReaction
  rw [Eff.run_bind, strlen_of_cstr hbuf, run_mem_ok_bind]
  by_cases hempty : s = []
  · subst hempty
    exact .of_prints (.pure false) c _
  rw [if_neg fun h => hempty (List.length_eq_zero_iff.mp h),
    strncmpEq_slash hbuf hempty, run_mem_ok_bind]
  by_cases hslash : [47] <+: s
  swap
  · obtain ⟨os, hos⟩ := Prints.outputError formatText c
    rw [decide_eq_false hslash, if_pos (by decide), if_pos (.inl hslash)]
    unfold formatText at hos
    rw [hos, Reaction.behind_of_sends_eq_nil rfl]
    exact ⟨[], os, rfl, by simp [Reaction.nothing]⟩
  rw [decide_eq_true hslash, if_neg (by decide)]
  by_cases hhelp : userHelp <+: s
  · rw [run_test_pos hbuf hhelp, if_pos (.inr hhelp), run_output,
      Reaction.behind_of_sends_eq_nil rfl]
    exact ⟨[], [.text helpString], rfl, by simp [Reaction.nothing]⟩
  rw [run_test_neg hbuf hhelp, if_neg (not_or.mpr ⟨not_not.mpr hslash, hhelp⟩)]
  by_cases hlistu : userListu <+: s
  · have hsend := Reacts.of_send (bytesOf_textBlock (clientListUser ++ ending) (slack - 4))
      (pure false) false (by simp) c []
    rw [Eff.run_bind] at hsend
    rw [run_test_pos hbuf hlistu, if_pos hlistu,
      setStringEnding_textBlock hslack (by decide) Nat.one_ne_zero, run_mem_ok_bind]
    simpa [length_ending] using hsend
  rw [run_test_neg hbuf hlistu, if_neg hlistu]
  by_cases hchat : userChat <+: s
  · have hframe := Client.toFrame_of_cstr (fun _ => slack) (cstr_drop_of_cstr hbuf hchat.length_le)
    rw [if_neg (by omega)] at hframe
    have hsend := Reacts.of_send (bytesOf_textBlock (msgTo ++ s.drop userChat.length ++ ending) 1)
      (pure false) false (by simp) c []
    rw [Eff.run_bind] at hsend
    rw [run_test_pos hbuf hchat, if_pos hchat, hframe, run_mem_ok_bind]
    simpa using hsend
  rw [run_test_neg hbuf hchat, if_neg hchat]
  by_cases hlogout : userLogout <+: s
  · have hsend := Reacts.of_send (bytesOf_textBlock (clientBye ++ ending) (slack - 4))
      (shutInput >>= fun _ => pure false) true (by simp [shutInput]) c []
    rw [← Eff.bind_assoc, Eff.run_bind] at hsend
    rw [run_test_pos hbuf hlogout, if_pos hlogout,
      setStringEnding_textBlock hslack (by decide) Nat.one_ne_zero, run_mem_ok_bind]
    simpa [length_ending] using hsend
  rw [run_test_neg hbuf hlogout, if_neg hlogout, Reaction.behind_of_sends_eq_nil rfl]
  exact ⟨[], [], rfl, by simp [shutInput]⟩

end Reactions

/-! ## An iteration -/

/-- What an iteration reads. -/
inductive Input
  /-- Nothing. -/
  | nothing
  /-- From the socket. -/
  | server (g : Got)
  /-- From the terminal. -/
  | user (g : Got)
  deriving DecidableEq

/-- What an iteration of `regular_chat` reads. -/
def chatInput (sockReady inputReady : Bool) (r line : ReadResult) : Input :=
  if sockReady then .server (got r) else if inputReady then .user (got line) else .nothing

/-- What is done with it; `shut` says whether the input is shut.
Source: `client.c` `regular_chat` (lines 272–387) -/
def chatReaction (shut : Bool) : Input → Reaction
  | .nothing => .nothing
  | .server (.string s) => (serverReaction s).behind shut
  | .server .eof =>
      ⟨[], false, if shut then .ok true else .error
        (.error "chat procedure: server terminated prematurely")⟩
  | .user (.string s) => (inputReaction s).behind shut
  | .user .eof => ⟨[], true, .ok false⟩
  | .server .overrun | .user .overrun => ⟨[], false, .error (.fault .outOfBounds)⟩

section Iteration

variable {slack : ℕ} {r line : ReadResult} (inputReady : Bool) (c : Chat)

/-- The part of the iteration that handles the server, -/
theorem run_chatIteration_server (hr : r ≠ .eof) :
    (chatIteration slack true inputReady r line).run c =
    (serverChunk slack (bufAfter r)).run c := by
  cases r with
  | eof => exact absurd rfl hr
  | failed => rfl
  | data b => rfl

/-- and the part that handles stdin. -/
theorem run_chatIteration_user (hline : line ≠ .eof) :
    (chatIteration slack false true r line).run c =
    (inputChunk slack (bufAfter line) >>= fun _ => (pure false : ChatM Bool)).run c := by
  cases line with
  | eof => exact absurd rfl hline
  | failed => rfl
  | data b => rfl

/-- Where there is no string, the first `strlen` goes beyond `buf`. -/
theorem strlen_of_error {buf : Block} {f : Fault} (hbuf : cstr buf = .error f) :
    strlen buf = .error f := by
  rw [strlen, hbuf]
  rfl

variable (hslack : 4 ≤ slack) (hr : r.Fits) (hline : line.Fits)

include hslack hr in
/-- An iteration with the socket ready reacts to the server, -/
theorem reacts_server : Reacts c ((chatIteration slack true inputReady r line).run c)
    (chatReaction c.stdineof (.server (got r))) := by
  rcases got_cases hr with ⟨rfl, hgot⟩ | ⟨hne, hgot, hbuf⟩ | ⟨hne, s, hgot, hbuf⟩
  · have hrun : (chatIteration slack true inputReady .eof line).run c =
      (if c.stdineof then pure true
        else Eff.stop (.error "chat procedure: server terminated prematurely") :
          ChatM Bool).run c := rfl
    rw [hrun, hgot]
    refine ⟨[], [], rfl, ?_⟩
    rw [chatReaction]
    split_ifs <;> simp
  · rw [run_chatIteration_server inputReady c hne, hgot, serverChunk,
      strlen_of_error hbuf, run_mem_error_bind]
    exact ⟨[], [], rfl, by simp [chatReaction]⟩
  · rw [run_chatIteration_server inputReady c hne, hgot]
    exact reacts_serverChunk hslack hbuf c

include hslack hline in
/-- and one without it to the user. -/
theorem reacts_user : Reacts c ((chatIteration slack false true r line).run c)
    (chatReaction c.stdineof (.user (got line))) := by
  rcases got_cases hline with ⟨rfl, hgot⟩ | ⟨hne, hgot, hbuf⟩ | ⟨hne, s, hgot, hbuf⟩
  · have hrun : (chatIteration slack false true r .eof).run c = (.ok false,
      { c with stdineof := true }) := rfl
    rw [hrun, hgot]
    exact ⟨[], [], rfl, by simp [chatReaction]⟩
  · rw [run_chatIteration_user c hne, hgot, Eff.run_bind, inputChunk,
      strlen_of_error hbuf, run_mem_error_bind]
    exact ⟨[], [], rfl, by simp [chatReaction]⟩
  · rw [run_chatIteration_user c hne, hgot]
    exact reacts_inputChunk hslack hbuf c

include hslack hr hline in
/-- **An iteration** does what is done with what it reads. -/
theorem reacts_chatIteration (sockReady : Bool) : Reacts c
    ((chatIteration slack sockReady inputReady r line).run c)
    (chatReaction c.stdineof (chatInput sockReady inputReady r line)) := by
  cases sockReady with
  | true => exact reacts_server inputReady c hslack hr
  | false =>
      cases inputReady with
      | true => exact reacts_user c hslack hline
      | false =>
          have hnothing := Reacts.of_prints (.pure false) c false
          rwa [Reaction.behind_false] at hnothing

end Iteration

end ME2U.Hw1Client
