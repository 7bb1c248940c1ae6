import ME2U.Found.Effect
import ME2U.Found.Memory
import ME2U.Found.Receiver
import ME2U.Protocol

/-!
# The receive buffer of the client

`client.c` collects what it reads in `full_buf`, a heap block of `max_size_of_full_buf` bytes that
grows by `MAXLINE` and is freed and allocated again when a frame is complete. `process_string` is
the only function that works on it.

Allocations are taken to succeed. The sizes are of type `int`, so that a block cannot grow past
`INT_MAX`.

* `RecvBuf.of p`: the buffer that holds the text `p` and zero bytes behind it.
* `run_processString`: one call on such a buffer, in closed form.
* `run_processReads`, `run_processReads_ok_iff`: a sequence of calls, and when it gets through.
* `processReads_conserves_iff`: the calls lose, duplicate and reorder nothing iff the pending text
  stays below `bufLimit`.
-/

namespace ME2U.Client

/-- Source: `client.h` `MAXLINE` (line 19) -/
def maxline : ℕ := 5120

/-- The largest value of an `int`. -/
def intMax : ℕ := 2147483647

/-- Source: `client.h` `ENDING` (line 52) -/
def ending : Bytes := [13, 10, 13, 10]

/-- The client and the server have the same terminating sequence. -/
theorem ending_eq : ending = encode terminatingSequence := by decide

theorem ending_ne_nil : ending ≠ [] := by decide

@[simp] theorem length_ending : ending.length = 4 := rfl

/-- There is no NUL in a frame, if there is none in its body. -/
theorem zero_notMem_frame {body : Bytes} (h0 : 0 ∉ body) : 0 ∉ body ++ ending :=
  List.not_mem_append h0 (by decide)

/-- The globals behind the receive buffer.
Source: `client.c` `full_buf`, `max_size_of_full_buf` (lines 5–8) -/
structure RecvBuf where
  /-- `full_buf`, `none` for a null pointer. -/
  fullBuf : Option Block
  /-- `max_size_of_full_buf`, which is never negative. -/
  maxSize : ℕ

/-- The block behind a pointer that is used. -/
def deref (p : Option Block) : Eff RecvBuf Fault Block :=
  match p with
  | none => Eff.stop .nullPointer
  | some b => pure b

/-- Source: `client.c` `increase_full_buf` (lines 519–531) -/
def increaseFullBuf : Eff RecvBuf Fault Unit := do
  let s ← Eff.get
  let temp := s.maxSize
  if intMax < s.maxSize + maxline then Eff.stop .intOverflow
  else do
    let maxSize := s.maxSize + maxline
    let blk := match s.fullBuf with
      | none => malloc maxline
      | some b => realloc b maxSize
    let blk ← Eff.lift (memset blk temp 0 maxline)
    Eff.modify fun _ => ⟨some blk, maxSize⟩

/-- Source: `client.c` `reset_full_buf` (lines 532–537) -/
def resetFullBuf : Eff RecvBuf Fault Unit := do
  Eff.modify fun _ => ⟨none, 0⟩
  increaseFullBuf

/-- Grow the block where the text of `len` bytes and `size` more do not fit.
Source: `client.c` `process_string` (lines 546–548) -/
def makeRoom (len size : ℕ) : Eff RecvBuf Fault Unit := do
  let s ← Eff.get
  if s.maxSize - 1 < len + size then increaseFullBuf else pure ()

/-- Hand out the text without its ending and start anew, where it has an ending.
Source: `client.c` `process_string` (lines 550–558) -/
def takeFrame : Eff RecvBuf Fault (Option Block) := do
  let s ← Eff.get
  let full ← deref s.fullBuf
  let len ← Eff.lift (strlen full)
  -- the comparison starts four bytes before the end of the text
  if len < 4 then Eff.stop .outOfBounds
  else do
    let ends ← Eff.lift (strncmpEq (full.drop (len - 4)) ending 4)
    if ends then do
      let toRet ← Eff.lift (memcpy (calloc len) full (len - 4))
      resetFullBuf
      pure (some toRet)
    else pure none

/-- Append `buf` to what is pending; the result is the text without its ending, once that has
arrived.
Source: `client.c` `process_string` (lines 543–559) -/
def processString (buf : Block) : Eff RecvBuf Fault (Option Block) := do
  let size ← Eff.lift (strlen buf)
  let s ← Eff.get
  let full ← deref s.fullBuf
  let len ← Eff.lift (strlen full)
  makeRoom len size
  let s ← Eff.get
  let full ← deref s.fullBuf
  let full ← Eff.lift (strcat full buf)
  Eff.modify fun s => { s with fullBuf := some full }
  takeFrame

/-! ## The buffer and its text -/

/-- The size of the block when it holds a text of `n` bytes. -/
def capacity (n : ℕ) : ℕ := maxline * (n / maxline + 1)

/-- The buffer that holds the text `p`. -/
def RecvBuf.of (p : Bytes) : RecvBuf :=
  ⟨some (textBlock p (capacity p.length - p.length)), capacity p.length⟩

/-- Where a text is too long for a block whose size is an `int`: the largest multiple of `MAXLINE`
up to `INT_MAX`. -/
def bufLimit : ℕ := 2147481600

/-- A text and its NUL fit into their block. -/
theorem lt_capacity (n : ℕ) : n < capacity n := by
  unfold capacity maxline
  omega

/-- What `main` sets up: an empty text.
Source: `client.c` `main` (lines 19–20) -/
theorem run_increaseFullBuf_null :
    increaseFullBuf.run ⟨none, 0⟩ = (.ok (), RecvBuf.of []) := by
  have hset : memset ([] ++ malloc maxline) 0 0 maxline = .ok ([] ++ zeros maxline) :=
    memset_append rfl (by simp [malloc])
  simp only [List.nil_append] at hset
  unfold increaseFullBuf
  rw [Eff.run_get_bind]
  rw [if_neg (by decide)]
  simp only [hset, Nat.zero_add, Eff.run_lift_ok_bind, Eff.run_modify]
  rfl

/-- Growing keeps the text and zeroes what is new. -/
theorem run_increaseFullBuf {p : Bytes} {n c : ℕ} (hcap : p.length + n = c) :
    increaseFullBuf.run ⟨some (textBlock p n), c⟩ =
      if intMax < c + maxline then (.error .intOverflow, ⟨some (textBlock p n), c⟩)
      else (.ok (), ⟨some (textBlock p (n + maxline)), c + maxline⟩) := by
  have hre : realloc (textBlock p n) (c + maxline) =
      textBlock p n ++ List.replicate maxline none := by
    unfold realloc
    rw [List.take_of_length_le (by simp; omega)]
    simp only [length_textBlock]
    congr 2
    omega
  have hset : memset (textBlock p n ++ List.replicate maxline none) c 0 maxline =
      .ok (textBlock p (n + maxline)) := by
    rw [memset_append (by simp [hcap]) (by simp), textBlock, textBlock,
      zeros_add, List.append_assoc]
  unfold increaseFullBuf
  rw [Eff.run_get_bind]
  by_cases h : intMax < c + maxline
  · simp only [if_pos h, Eff.run_stop]
  · simp only [if_neg h, hre, hset, Eff.run_lift_ok_bind, Eff.run_modify]

/-- The reset leaves an empty text. -/
theorem run_resetFullBuf (s : RecvBuf) : resetFullBuf.run s = (.ok (), RecvBuf.of []) := by
  unfold resetFullBuf
  rw [Eff.run_modify_bind, run_increaseFullBuf_null]

/-! ## One call -/

/-- The block before the append: as it was, or one `MAXLINE` larger. -/
theorem run_makeRoom {p b : Bytes} (hb : b.length < maxline) (hlim : p.length < bufLimit) :
    (makeRoom p.length b.length).run (.of p) =
      if bufLimit ≤ (p ++ b).length then (.error .intOverflow, .of p)
      else (.ok (), ⟨some (textBlock p (capacity (p ++ b).length - p.length)),
        capacity (p ++ b).length⟩) := by
  have hlt := lt_capacity p.length
  have hgrow := run_increaseFullBuf (p := p) (n := capacity p.length - p.length)
    (c := capacity p.length) (by omega)
  have hof : RecvBuf.of p =
      ⟨some (textBlock p (capacity p.length - p.length)), capacity p.length⟩ := rfl
  rw [← hof] at hgrow
  unfold makeRoom
  rw [Eff.run_get_bind, List.length_append]
  by_cases hroom : (RecvBuf.of p).maxSize - 1 < p.length + b.length
  · rw [if_pos hroom, hgrow]
    have hfull : capacity p.length - 1 < p.length + b.length := hroom
    have hcap : capacity (p.length + b.length) = capacity p.length + maxline := by
      unfold capacity maxline at *
      omega
    have hover : intMax < capacity p.length + maxline ↔ bufLimit ≤ p.length + b.length := by
      unfold capacity maxline intMax bufLimit at *
      omega
    have hsub : capacity p.length - p.length + maxline = capacity p.length +
        maxline - p.length := by
      omega
    simp only [hover, hcap, hsub]
  · rw [if_neg hroom]
    have hfits : ¬capacity p.length - 1 < p.length + b.length := hroom
    have hcap : capacity (p.length + b.length) = capacity p.length := by
      unfold capacity maxline at *
      omega
    have hover : ¬bufLimit ≤ p.length + b.length := by
      unfold capacity maxline bufLimit at *
      omega
    rw [if_neg hover, hcap, Eff.run_pure, RecvBuf.of]

/-- The last four bytes of a text decide the comparison. -/
theorem strncmpEq_ending {q : Bytes} (hq : 0 ∉ q) (h4 : 4 ≤ q.length) (n : ℕ) :
    strncmpEq ((textBlock q n).drop (q.length - 4)) ending 4 = .ok (decide (ending <:+ q)) := by
  obtain ⟨x, y, rfl, hy⟩ : ∃ x y, q = x ++ y ∧ y.length = 4 :=
    ⟨q.take (q.length - 4), q.drop (q.length - 4), by simp, by simp; omega⟩
  have hx : (x ++ y).length - 4 = x.length := by simp [hy]
  have hy0 : 0 ∉ y := fun h => hq (List.mem_append_right x h)
  rw [hx, drop_textBlock, textBlock, strncmpEq_cells hy0 hy.ge, List.take_of_length_le hy.le]
  by_cases hend : y = ending
  · subst hend
    simp
  · have hno : ¬ending <:+ x ++ y := by
      rintro ⟨z, hz⟩
      exact hend (List.append_inj_right' hz (by simp [hy])).symm
    have hbeq : (y == ending.take 4) = false := by simpa [ending] using hend
    rw [hbeq, decide_eq_false hno]

/-- The block with the text. -/
theorem deref_of (p : Bytes) :
    deref (RecvBuf.of p).fullBuf = pure (textBlock p (capacity p.length - p.length)) := rfl

/-- Its length is that of the text. -/
theorem strlen_of {p : Bytes} (hp : 0 ∉ p) :
    strlen (textBlock p (capacity p.length - p.length)) = .ok p.length :=
  strlen_textBlock hp (by have := lt_capacity p.length; omega)

/-- What is handed out of a buffer that holds `q`. -/
theorem run_takeFrame {q : Bytes} (hq : 0 ∉ q) :
    takeFrame.run (.of q) =
      if q.length < 4 then (.error .outOfBounds, .of q)
      else if ending <:+ q then (.ok (some (textBlock (q.take (q.length - 4)) 4)), .of [])
      else (.ok none, .of q) := by
  unfold takeFrame
  rw [Eff.run_get_bind, deref_of, Eff.run_pure_bind, strlen_of hq, Eff.run_lift_ok_bind]
  by_cases h4 : q.length < 4
  · rw [if_pos h4, if_pos h4, Eff.run_stop]
  rw [if_neg h4, if_neg h4, strncmpEq_ending hq (by omega), Eff.run_lift_ok_bind]
  by_cases hend : ending <:+ q
  · -- the frame is complete: its body is copied out and the buffer starts anew
    obtain ⟨body, rfl⟩ := hend
    have hcopy : memcpy (calloc (body ++ ending).length)
        (textBlock (body ++ ending) (capacity (body ++ ending).length - (body ++ ending).length))
        ((body ++ ending).length - 4) = .ok (textBlock body 4) := by
      rw [textBlock, cells_append, List.append_assoc, memcpy_calloc (by simp) (by simp)]
      simp
    have htake : (body ++ ending).take ((body ++ ending).length - 4) = body := by simp
    rw [decide_eq_true (List.suffix_append body ending), if_pos rfl,
      if_pos (List.suffix_append body ending), hcopy, Eff.run_lift_ok_bind,
      Eff.run_bind_ok (run_resetFullBuf _), Eff.run_pure, htake]
  · rw [decide_eq_false hend, if_neg (by simp), if_neg hend, Eff.run_pure]

/-- **One call.** With `p` pending and `b` read, a call overflows where the text gets too long,
leaves the block where the text is shorter than the ending, and otherwise does what a receiver
that looks at the end of its text does. -/
theorem run_processString {p b : Bytes} {buf : Block} (hp : 0 ∉ p) (hbuf : cstr buf = .ok b)
    (hb : b.length < maxline) (hlim : p.length < bufLimit) :
    (processString buf).run (.of p) =
      if bufLimit ≤ (p ++ b).length then (.error .intOverflow, .of p)
      else if (p ++ b).length < 4 then (.error .outOfBounds, .of (p ++ b))
      else (.ok ((receive ending p b).1.map (textBlock · 4)), .of (receive ending p b).2) := by
  have hb0 : 0 ∉ b := zero_notMem_of_cstr hbuf
  have hpb : 0 ∉ p ++ b := by simp [hp, hb0]
  have hlt := lt_capacity (p ++ b).length
  have hsize : strlen buf = .ok b.length := by rw [strlen, hbuf]; rfl
  have hroom := run_makeRoom hb hlim
  unfold processString
  rw [hsize, Eff.run_lift_ok_bind, Eff.run_get_bind, deref_of, Eff.run_pure_bind,
    strlen_of hp, Eff.run_lift_ok_bind]
  by_cases hover : bufLimit ≤ (p ++ b).length
  · rw [if_pos hover] at hroom ⊢
    rw [Eff.run_bind_error hroom]
  rw [if_neg hover] at hroom ⊢
  rw [Eff.run_bind_ok hroom, Eff.run_get_bind]
  -- the block has room for the text and its NUL
  have hcat : strcat (textBlock p (capacity (p ++ b).length - p.length)) buf =
      .ok (textBlock (p ++ b) (capacity (p ++ b).length - (p ++ b).length)) := by
    rw [List.length_append] at *
    rw [strcat_textBlock hp hbuf (by omega), Nat.sub_sub]
  simp only [deref, Eff.run_pure_bind, hcat, Eff.run_lift_ok_bind, Eff.run_modify_bind]
  show takeFrame.run (.of (p ++ b)) = _
  rw [run_takeFrame hpb, receive]
  split_ifs <;> rfl

/-! ## A sequence of calls -/

/-- `read_buf` when it was cleared and `b` was read into it.
Source: `client.c` (lines 212, 222) -/
def readBuf (b : Bytes) : Block := textBlock b (maxline - b.length)

/-- A read without a NUL is the string in `read_buf`. -/
theorem cstr_readBuf {b : Bytes} (hb0 : 0 ∉ b) (hb : b.length < maxline) :
    cstr (readBuf b) = .ok b :=
  cstr_textBlock hb0 (by omega)

/-- A read that `process_string` may be given: a string that leaves room for a NUL. -/
structure IsRead (b : Bytes) : Prop where
  zero_notMem : 0 ∉ b
  length_lt : b.length < maxline

/-- The string at a pointer that may be null. -/
def stringAt : Option Block → Except Fault (Option Bytes)
  | none => .ok none
  | some blk => (cstr blk).map some

/-- Give each read to `process_string`; the strings it returns. -/
def processReads : List Bytes → Eff RecvBuf Fault (List (Option Bytes))
  | [] => pure []
  | b :: bs => do
      let ret ← processString (readBuf b)
      let str ← Eff.lift (stringAt ret)
      let strs ← processReads bs
      pure (str :: strs)

/-- The texts `process_string` can look at: no shorter than the ending, and no longer than the
block can get. -/
def Manageable (q : Bytes) : Prop := 4 ≤ q.length ∧ q.length < bufLimit

/-- The string that is returned, if there is one. -/
theorem stringAt_map_textBlock {o : Option Bytes} (h : ∀ body ∈ o, 0 ∉ body) :
    stringAt (o.map (textBlock · 4)) = .ok o := by
  cases o with
  | none => rfl
  | some body =>
      have hcstr : cstr (textBlock body 4) = .ok body := cstr_textBlock (h body rfl) (by decide)
      simp [stringAt, hcstr, Except.map]

/-- What one read leaves holds no NUL either. -/
theorem zero_notMem_receive {p b : Bytes} (hp : 0 ∉ p) (hb : 0 ∉ b) :
    (∀ body ∈ (receive ending p b).1, 0 ∉ body) ∧ 0 ∉ (receive ending p b).2 := by
  have hpb : 0 ∉ p ++ b := by simp [hp, hb]
  by_cases hend : ending <:+ p ++ b
  · obtain ⟨body, hbody⟩ := hend
    rw [receive_of_isSuffix hbody.symm]
    refine ⟨fun c hc => ?_, by simp⟩
    obtain rfl : body = c := by simpa using hc
    exact fun h => hpb (hbody ▸ List.mem_append_left ending h)
  · rw [receive_of_not_isSuffix hend]
    exact ⟨by simp, hpb⟩

/-- One call on a manageable text. -/
theorem run_processString_of_manageable {p b : Bytes} (hp : 0 ∉ p) (hb : IsRead b)
    (hlim : p.length < bufLimit) (hq : Manageable (p ++ b)) :
    (processString (readBuf b)).run (.of p) =
      (.ok ((receive ending p b).1.map (textBlock · 4)), .of (receive ending p b).2) := by
  rw [run_processString hp (cstr_readBuf hb.1 hb.2) hb.2 hlim, if_neg (Nat.not_le.mpr hq.2),
    if_neg (Nat.not_lt.mpr hq.1)]

/-- One call on a text that is not manageable. -/
theorem run_processString_of_not {p b : Bytes} (hp : 0 ∉ p) (hb : IsRead b)
    (hlim : p.length < bufLimit) (hq : ¬Manageable (p ++ b)) :
    ∃ f s, (processString (readBuf b)).run (.of p) = (.error f, s) := by
  rw [run_processString hp (cstr_readBuf hb.1 hb.2) hb.2 hlim]
  split_ifs with hover hshort
  · exact ⟨_, _, rfl⟩
  · exact ⟨_, _, rfl⟩
  · exact absurd ⟨Nat.not_lt.mp hshort, Nat.not_le.mp hover⟩ hq

/-- A whole frame that is read with nothing pending is returned without its ending. -/
theorem run_processString_frame {body : Bytes} (h0 : 0 ∉ body)
    (hlen : (body ++ ending).length < maxline) :
    (processString (readBuf (body ++ ending))).run (.of []) =
      (.ok (some (textBlock body 4)), .of []) := by
  have hmanageable : Manageable ([] ++ (body ++ ending)) :=
    ⟨by simp, by rw [List.nil_append]; exact hlen.trans (by decide)⟩
  rw [run_processString_of_manageable (by simp) ⟨zero_notMem_frame h0, hlen⟩
    (by decide) hmanageable, receive_of_isSuffix (List.nil_append _)]
  rfl

/-- The next pending text is within the limit. -/
theorem length_receive_lt {p b : Bytes} (hq : Manageable (p ++ b)) :
    (receive ending p b).2.length < bufLimit := by
  unfold receive
  split_ifs
  · show 0 < bufLimit
    decide
  · exact hq.2

/-- **A sequence of calls** on manageable texts returns what the receiver returns. -/
theorem run_processReads {p : Bytes} {bs : List Bytes} (hp : 0 ∉ p) (hbs : ∀ b ∈ bs, IsRead b)
    (hlim : p.length < bufLimit) (hq : ∀ q ∈ pendings ending p bs, Manageable q) :
    (processReads bs).run (.of p) =
      (.ok (outcomes ending p bs), .of (receiveAll ending p bs).2) := by
  induction bs generalizing p with
  | nil => rfl
  | cons b bs ih =>
      unfold pendings at hq
      rw [List.forall_mem_cons] at hq
      have hb := hbs b (by simp)
      obtain ⟨hbody, hp'⟩ := zero_notMem_receive hp hb.1
      have hrest := ih hp' (fun c hc => hbs c (by simp [hc])) (length_receive_lt hq.1) hq.2
      unfold processReads
      rw [Eff.run_bind_ok (run_processString_of_manageable hp hb hlim hq.1),
        stringAt_map_textBlock hbody, Eff.run_lift_ok_bind, Eff.run_bind_ok hrest]
      rfl

/-- The calls get through exactly when every text looked at is manageable. -/
theorem run_processReads_ok_iff {p : Bytes} {bs : List Bytes} (hp : 0 ∉ p)
    (hbs : ∀ b ∈ bs, IsRead b) (hlim : p.length < bufLimit) :
    (∃ strs s, (processReads bs).run (.of p) = (.ok strs, s)) ↔
      ∀ q ∈ pendings ending p bs, Manageable q := by
  refine ⟨fun h => ?_, fun hq => ⟨_, _, run_processReads hp hbs hlim hq⟩⟩
  induction bs generalizing p with
  | nil => simp [pendings]
  | cons b bs ih =>
      obtain ⟨strs, s, hrun⟩ := h
      have hb := hbs b (by simp)
      rw [processReads] at hrun
      obtain ⟨ret, s₁, hcall, hrun⟩ := Eff.run_bind_eq_ok_iff.mp hrun
      have hone : Manageable (p ++ b) := by
        rw [run_processString hp (cstr_readBuf hb.1 hb.2) hb.2 hlim] at hcall
        constructor
        · by_contra h4
          split_ifs at hcall <;> simp_all
        · by_contra hover
          rw [if_pos (Nat.not_lt.mp hover)] at hcall
          cases hcall
      rw [run_processString_of_manageable hp hb hlim hone] at hcall
      simp only [Prod.mk.injEq, Except.ok.injEq] at hcall
      obtain ⟨rfl, rfl⟩ := hcall
      obtain ⟨hbody, hp'⟩ := zero_notMem_receive hp hb.1
      rw [stringAt_map_textBlock hbody, Eff.run_lift_ok_bind] at hrun
      obtain ⟨strs', s₂, hrest, -⟩ := Eff.run_bind_eq_ok_iff.mp hrun
      unfold pendings
      rw [List.forall_mem_cons]
      exact ⟨hone, ih hp' (fun c hc => hbs c (by simp [hc])) (length_receive_lt hone)
        ⟨strs', s₂, hrest⟩⟩

/-! ## Conservation -/

/-- `full_buf` as a string. -/
def RecvBuf.text (s : RecvBuf) : Except Fault Bytes :=
  match s.fullBuf with
  | none => .error .nullPointer
  | some blk => cstr blk

/-- The text of a buffer that holds it. -/
theorem RecvBuf.text_of {p : Bytes} (hp : 0 ∉ p) : (RecvBuf.of p).text = .ok p :=
  cstr_textBlock hp (by have := lt_capacity p.length; omega)

/-- Every call returns a string exactly when the pending text and this read end in the ending; then
it returns that text without its last four bytes and leaves nothing pending, and otherwise the text
is pending. -/
def CallsExact : RecvBuf → List Bytes → Prop
  | _, [] => True
  | s, b :: bs => ∃ p ret s', s.text = .ok p ∧ (processString (readBuf b)).run s = (.ok ret, s') ∧
      (∀ body, p ++ b = body ++ ending → stringAt ret = .ok (some body) ∧ s'.text = .ok []) ∧
      (¬ending <:+ p ++ b → ret = none ∧ s'.text = .ok (p ++ b)) ∧ CallsExact s' bs

/-- The strings returned, each with its ending, and then the final text are the bytes read. -/
def Conserves (s : RecvBuf) (bs : List Bytes) : Prop :=
  ∃ strs s' p, (processReads bs).run s = (.ok strs, s') ∧ s'.text = .ok p ∧
    strs.reduceOption.flatMap (· ++ ending) ++ p = bs.flatten

/-- While the pending text stays manageable, every call is exact. -/
theorem callsExact_of_manageable {p : Bytes} {bs : List Bytes} (hp : 0 ∉ p)
    (hbs : ∀ b ∈ bs, IsRead b) (hlim : p.length < bufLimit)
    (hq : ∀ q ∈ pendings ending p bs, Manageable q) : CallsExact (.of p) bs := by
  induction bs generalizing p with
  | nil => trivial
  | cons b bs ih =>
      unfold pendings at hq
      rw [List.forall_mem_cons] at hq
      have hb := hbs b (by simp)
      obtain ⟨hbody, hp'⟩ := zero_notMem_receive hp hb.1
      refine ⟨p, _, _, RecvBuf.text_of hp, run_processString_of_manageable hp hb hlim hq.1, ?_, ?_,
        ih hp' (fun c hc => hbs c (by simp [hc])) (length_receive_lt hq.1) hq.2⟩
      · intro body hend
        rw [stringAt_map_textBlock hbody, RecvBuf.text_of hp', receive_of_isSuffix hend]
        exact ⟨rfl, rfl⟩
      · intro hend
        rw [RecvBuf.text_of hp', receive_of_not_isSuffix hend]
        exact ⟨rfl, rfl⟩

/-- **Byte conservation.** For reads after each of which at least four bytes are pending, every
call is exact and nothing is lost, duplicated or reordered iff the pending text always stays below
`bufLimit`. -/
theorem processReads_conserves_iff (bs : List Bytes) (hbs : ∀ b ∈ bs, IsRead b)
    (h4 : ∀ q ∈ pendings ending [] bs, 4 ≤ q.length) :
    (CallsExact (.of []) bs ∧ Conserves (.of []) bs) ↔
      ∀ q ∈ pendings ending [] bs, q.length < bufLimit := by
  have hnil : (0 : UInt8) ∉ ([] : Bytes) := by simp
  have hlim : ([] : Bytes).length < bufLimit := by decide
  constructor
  · rintro ⟨-, strs, s', p, hrun, -, -⟩ q hq
    exact ((run_processReads_ok_iff hnil hbs hlim).mp ⟨strs, s', hrun⟩ q hq).2
  · intro hlt
    have hq : ∀ q ∈ pendings ending [] bs, Manageable q := fun q hq => ⟨h4 q hq, hlt q hq⟩
    have hrun := run_processReads hnil hbs hlim hq
    have hpend : 0 ∉ (receiveAll ending [] bs).2 := by
      have hconserve := receiveAll_conserves ending [] bs
      intro hmem
      have : (0 : UInt8) ∈ [] ++ bs.flatten := hconserve ▸ List.mem_append_right _ hmem
      obtain ⟨b, hb, h0⟩ := List.mem_flatten.mp (by simpa using this)
      exact (hbs b hb).1 h0
    refine ⟨callsExact_of_manageable hnil hbs hlim hq, _, _, _, hrun, RecvBuf.text_of hpend, ?_⟩
    rw [reduceOption_outcomes, receiveAll_conserves, List.nil_append]

/-- Two frames in four reads: the first ending is cut, and the second one begins behind a pending
text. -/
theorem processReads_conserves_two_frames :
    CallsExact (.of []) [[97, 98, 99, 13], [10, 13, 10], [84, 79, 32, 120], ending] ∧
      Conserves (.of []) [[97, 98, 99, 13], [10, 13, 10], [84, 79, 32, 120], ending] := by
  refine (processReads_conserves_iff _ ?_ (by decide)).mpr (by decide)
  intro b hb
  simp only [List.mem_cons, List.not_mem_nil, or_false] at hb
  rcases hb with rfl | rfl | rfl | rfl <;> exact ⟨by decide, by decide⟩

/-- The length of a text that is read again and again. -/
theorem length_flatten_replicate (n : ℕ) (b : Bytes) :
    (List.replicate n b).flatten.length = n * b.length := by
  simp

/-- Reads of four bytes without an ending, enough of them that their text does not fit any block
whose size is an `int`. -/
private def longText : List Bytes := List.replicate 536870400 [97, 97, 97, 97]

/-- Every read is the same. -/
private theorem eq_of_mem_longText {b : Bytes} (hb : b ∈ longText) : b = [97, 97, 97, 97] :=
  List.eq_of_mem_replicate hb

/-- A text that gets too long is not conserved. -/
theorem not_processReads_conserves :
    ¬∀ bs : List Bytes, (∀ b ∈ bs, b ≠ [] ∧ IsRead b) →
      (∀ q ∈ pendings ending [] bs, 4 ≤ q.length) →
      CallsExact (.of []) bs ∧ Conserves (.of []) bs := by
  intro hall
  have hread : ∀ b ∈ longText, b ≠ [] ∧ IsRead b := by
    intro b hb
    rw [eq_of_mem_longText hb]
    exact ⟨by decide, by decide, by decide⟩
  have h4 : ∀ q ∈ pendings ending [] longText, 4 ≤ q.length := by
    intro q hq
    obtain ⟨p, b, hb, rfl⟩ := exists_of_mem_pendings hq
    rw [eq_of_mem_longText hb]
    simp
  obtain ⟨-, strs, s', p, hrun, -⟩ := hall longText hread h4
  have hmanageable :=
    (run_processReads_ok_iff (by simp) (fun b hb => (hread b hb).2) (by decide)).mp
    ⟨strs, s', hrun⟩
  -- nothing is handed out, so that the whole text gets pending
  have hcr : (13 : UInt8) ∉ longText.flatten := by
    intro hmem
    obtain ⟨b, hb, h13⟩ := List.mem_flatten.mp hmem
    rw [eq_of_mem_longText hb] at h13
    exact absurd h13 (by decide)
  have hpend : (receiveAll ending [] longText).2 = longText.flatten :=
    congrArg Prod.snd (receiveAll_of_notMem (t := ending) (by decide) hcr)
  have hlen : longText.flatten.length = 2147481600 := length_flatten_replicate _ _
  have hne : longText ≠ [] := by
    intro h
    rw [h, List.flatten_nil, List.length_nil] at hlen
    omega
  rcases receiveAll_snd_mem_pendings (t := ending) (p := []) hne with hnil | hmem
  · rw [hpend] at hnil
    rw [hnil, List.length_nil] at hlen
    omega
  · rw [hpend] at hmem
    have hlt := (hmanageable _ hmem).2
    rw [hlen] at hlt
    exact absurd hlt (by decide)

end ME2U.Client
