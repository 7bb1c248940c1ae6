import ME2U.Client.Windows

/-!
# The strings that the client builds

Four strings are built in blocks of `calloc`: the requests without arguments, the stored username,
the `TO` frame of a line and the `TO` frame of a window. The size of the block is computed from
other quantities than what is copied, and it counts no NUL. Three of them fit only thanks to what
the allocator leaves behind the block.

* `storedName`, `toFrameBlock`, `childFrameBlock`: the blocks, with the ways in which they are read.
* `append_textBlock`: copying a text behind the string in a block.
* `outgoing_fits_iff`: which of the strings end in a NUL within their block.
-/

namespace ME2U.Client

/-! ## The blocks -/

/-- The block of a username.
Source: `client.c` `create_new_user` (lines 475–476) -/
def storedName (name : Block) : Except Fault Block := do
  let n ← strlen name
  memcpy (calloc n) name n

/-- The block of the `TO` frame of a line.
Source: `client.c` `regular_chat` (lines 289–296) -/
def toFrameBlock (newBuf : Block) : Except Fault Block := do
  let n ← strlen newBuf
  let newStr ← memcpy (calloc (msgTo.length + n + 4)) (textBlock msgTo 1) msgTo.length
  let i ← strlen newStr
  let newStr ← store newStr i (newBuf.take n)
  let i ← strlen newStr
  store newStr i (cells ending)

/-- The block of the `TO` frame of a window.
Source: `client.c` `any_children_replied` (lines 333–341) -/
def childFrameBlock (slack : Slack) (username : Bytes) (newBuf : Block) : Except Fault Block := do
  let n ← strlen newBuf
  let newStr ← memcpy (calloc (msgTo.length + n + 24)) (textBlock msgTo 1) msgTo.length
  let i ← strlen newStr
  let m ← strlen (nameBlock slack username)
  let newStr ← store newStr i ((nameBlock slack username).take m)
  let i ← strlen newStr
  let newStr ← store newStr i [some 32]
  let i ← strlen newStr
  let newStr ← store newStr i (newBuf.take n)
  let i ← strlen newStr
  store newStr i (cells ending)

/-- Nothing is left behind a block. -/
def noSlack : Slack := fun _ => 0

/-- The frame of a line is read on behind its block. -/
theorem toFrame_eq_block (slack : Slack) (newBuf : Block) :
    toFrame slack newBuf = toFrameBlock newBuf >>= fun newStr =>
      cstr (newStr ++ zeros (slack newStr)) := by
  unfold toFrame toFrameBlock
  simp only [bind_assoc]

/-- The frame of a window is read in its block. -/
theorem childFrame_eq_block (slack : Slack) (username : Bytes) (newBuf : Block) :
    childFrame slack username newBuf = childFrameBlock slack username newBuf >>= cstr := by
  unfold childFrame childFrameBlock
  simp only [bind_assoc]

/-- A username is read on behind its block. -/
theorem storedName_of_cstr {name : Block} {w : Bytes} (h : cstr name = .ok w) :
    storedName name = .ok (cells w) ∧
      ∀ slack : Slack, nameBlock slack w = cells w ++ zeros (slack (cells w)) := by
  refine ⟨?_, fun _ => rfl⟩
  obtain ⟨-, q, rfl⟩ := exists_of_cstr h
  unfold storedName
  rw [strlen, h]
  show memcpy (calloc w.length) (cells w ++ some 0 :: q) w.length = _
  rw [memcpy_calloc rfl (Nat.le_refl _), Nat.sub_self]
  exact congrArg Except.ok (List.append_nil _)

/-! ## What is in them -/

/-- What a window's frame is made of. -/
def childText (username t : Bytes) : Bytes := msgTo ++ username ++ [32] ++ t ++ ending

/-- There is no NUL in the line of a chat window. -/
theorem zero_notMem_childText {username t : Bytes} (hu : 0 ∉ username) (ht : 0 ∉ t) :
    0 ∉ childText username t :=
  zero_notMem_frame (List.not_mem_append (List.not_mem_append (List.not_mem_append (by decide) hu)
    (by decide)) ht)

/-- **The block of a window's frame** has room for a username of 19 bytes. -/
theorem childFrameBlock_eq (slack : Slack) {username t : Bytes} (hu : 0 ∉ username) {newBuf : Block}
    (hbuf : cstr newBuf = .ok t) :
    childFrameBlock slack username newBuf =
      if slack (cells username) ≠ 0 ∧ username.length ≤ 19 then
        .ok (textBlock (childText username t) (19 - username.length))
      else .error .outOfBounds := by
  obtain ⟨ht, q, rfl⟩ := exists_of_cstr hbuf
  have hn : strlen (cells t ++ some 0 :: q) = .ok t.length := by
    rw [strlen, hbuf]
    rfl
  have htake : (cells t ++ some 0 :: q).take t.length = cells t := List.take_left' (length_cells t)
  have hto : memcpy (calloc (msgTo.length + t.length + 24)) (textBlock msgTo 1) msgTo.length =
      .ok (textBlock msgTo (t.length + 24)) := by
    have hsub : msgTo.length + t.length + 24 - msgTo.length = t.length + 24 := by omega
    rw [textBlock, memcpy_calloc rfl (by omega), hsub]
  have hname : 0 ∉ msgTo ++ username := List.not_mem_append (by decide) hu
  have hspace : 0 ∉ msgTo ++ username ++ [32] := List.not_mem_append hname (by decide)
  have htext : 0 ∉ msgTo ++ username ++ [32] ++ t := List.not_mem_append hspace ht
  unfold childFrameBlock
  rw [hn, ok_bind, hto, ok_bind, htake]
  by_cases hslack : slack (cells username) = 0
  · -- the end of the username is not found
    have hm : strlen (nameBlock slack username) = .error .outOfBounds := by
      rw [strlen, nameBlock, hslack, textBlock, cstr_cells_outOfBounds hu]
      rfl
    rw [hm, strlen_textBlock (by decide) (by omega), ok_bind, error_bind,
      if_neg (fun h => h.1 hslack)]
  have htake' : (nameBlock slack username).take username.length = cells username := by
    rw [nameBlock, textBlock, List.take_left' (length_cells username)]
  have hm : strlen (nameBlock slack username) = .ok username.length := strlen_textBlock hu hslack
  have hspace' : [some (32 : UInt8)] = cells [32] := rfl
  simp only [hm, ok_bind, htake', hspace']
  rw [append_textBlock_bind (by decide), append_textBlock_bind hname, append_textBlock_bind hspace,
    append_textBlock htext]
  have hone : [(32 : UInt8)].length = 1 := rfl
  have hfour : ending.length = 4 := rfl
  by_cases hlen : username.length ≤ 19
  · rw [if_pos ⟨by omega, by omega⟩, if_pos ⟨by omega, by omega⟩, if_pos ⟨by omega, by omega⟩,
      if_pos ⟨by omega, by omega⟩, if_pos ⟨hslack, hlen⟩, childText]
    congr 2
    omega
  · rw [if_neg (fun h : slack (cells username) ≠ 0 ∧ _ => hlen h.2)]
    -- one of the copies does not fit
    split_ifs
    · omega
    all_goals rfl

/-- **The frame of a window** is sent for usernames of up to 18 bytes. -/
theorem childFrame_of_cstr (slack : Slack) {username t : Bytes} (hu : 0 ∉ username) {newBuf : Block}
    (hbuf : cstr newBuf = .ok t) :
    childFrame slack username newBuf =
      if slack (cells username) ≠ 0 ∧ username.length ≤ 18 then .ok (childText username t)
      else .error .outOfBounds := by
  have ht := zero_notMem_of_cstr hbuf
  rw [childFrame_eq_block, childFrameBlock_eq slack hu hbuf]
  by_cases hfits : slack (cells username) ≠ 0 ∧ username.length ≤ 19
  · rw [if_pos hfits, ok_bind, cstr_textBlock_eq (zero_notMem_childText hu ht)]
    have hroom : 19 - username.length ≠ 0 ↔ slack (cells username) ≠ 0 ∧ username.length ≤ 18 := by
      omega
    simp only [hroom]
  · rw [if_neg hfits, if_neg (fun h => hfits ⟨h.1, by omega⟩), error_bind]

/-- The block of a line's frame is filled up to its last byte. -/
theorem toFrameBlock_of_cstr {newBuf : Block} {t : Bytes} (hbuf : cstr newBuf = .ok t) :
    toFrameBlock newBuf = .ok (textBlock (msgTo ++ t ++ ending) 0) := by
  obtain ⟨ht, q, rfl⟩ := exists_of_cstr hbuf
  have hn : strlen (cells t ++ some 0 :: q) = .ok t.length := by
    rw [strlen, hbuf]
    rfl
  have htake : (cells t ++ some 0 :: q).take t.length = cells t := List.take_left' (length_cells t)
  have hto : memcpy (calloc (msgTo.length + t.length + 4)) (textBlock msgTo 1) msgTo.length =
      .ok (textBlock msgTo (t.length + 4)) := by
    have hsub : msgTo.length + t.length + 4 - msgTo.length = t.length + 4 := by omega
    rw [textBlock, memcpy_calloc rfl (by omega), hsub]
  have hfree : 0 ∉ msgTo ++ t := List.not_mem_append (by decide) ht
  unfold toFrameBlock
  rw [hn, ok_bind, hto, ok_bind, htake, append_textBlock_bind (by decide),
    if_pos ⟨by omega, by omega⟩, Nat.add_sub_cancel_left, append_textBlock hfree,
    if_pos ⟨by decide, by decide⟩]
  rfl

/-! ## Which of them fit -/

/-- A string was written inside of its block, and has its NUL there. -/
def Fits (built : Except Fault Block) : Prop := ∃ blk s, built = .ok blk ∧ cstr blk = .ok s

/-- A text without a NUL behind it in its block does not fit. -/
theorem not_fits_cells {s : Bytes} (hs : 0 ∉ s) : ¬Fits (.ok (textBlock s 0)) := by
  rintro ⟨blk, t, hblk, ht⟩
  obtain rfl := Except.ok.inj hblk
  rw [textBlock, cstr_cells_outOfBounds hs] at ht
  cases ht

/-- **Which strings fit their blocks**: the requests without arguments, the stored username and the
frame of a line never; the frame of a window iff the username has at most 18 bytes, and the
allocator has left a NUL behind it where it is stored. -/
theorem outgoing_fits_iff (slack : Slack) :
    (∀ str, ¬Fits (setStringEnding noSlack str)) ∧ (∀ name, ¬Fits (storedName name)) ∧
      (∀ newBuf, ¬Fits (toFrameBlock newBuf)) ∧
      ∀ (username t : Bytes) (newBuf : Block), 0 ∉ username → cstr newBuf = .ok t →
        (Fits (childFrameBlock slack username newBuf) ↔
          slack (cells username) ≠ 0 ∧ username.length ≤ 18) := by
  refine ⟨?_, ?_, ?_, ?_⟩
  · rintro str ⟨blk, s, hblk, -⟩
    rw [setStringEnding_eq,
      if_neg (show ¬4 ≤ noSlack (cells str) from Nat.not_succ_le_zero 3)] at hblk
    cases hblk
  · intro name hfits
    cases hname : cstr name with
    | error f =>
        obtain ⟨blk, s, hblk, -⟩ := hfits
        rw [storedName, strlen, hname] at hblk
        cases hblk
    | ok w =>
        rw [(storedName_of_cstr hname).1] at hfits
        apply not_fits_cells (zero_notMem_of_cstr hname)
        rwa [textBlock, zeros, List.replicate_zero, List.append_nil]
  · intro newBuf hfits
    cases hbuf : cstr newBuf with
    | error f =>
        obtain ⟨blk, s, hblk, -⟩ := hfits
        rw [toFrameBlock, strlen, hbuf] at hblk
        cases hblk
    | ok t =>
        rw [toFrameBlock_of_cstr hbuf] at hfits
        have ht := zero_notMem_of_cstr hbuf
        exact not_fits_cells (zero_notMem_frame (List.not_mem_append (by decide) ht)) hfits
  · intro username t newBuf hu hbuf
    have hframe := childFrame_of_cstr slack hu hbuf
    rw [childFrame_eq_block] at hframe
    constructor
    · rintro ⟨blk, s, hblk, hs⟩
      by_contra hno
      rw [hblk, ok_bind, hs, if_neg hno] at hframe
      cases hframe
    · intro hfits
      rw [if_pos hfits] at hframe
      obtain ⟨blk, hblk, hs⟩ := exists_of_bind_eq_ok hframe
      exact ⟨blk, _, hblk, hs⟩

/-- What a short name says in a window. -/
theorem outgoing_fits_hi :
    Fits (childFrameBlock (fun _ => 1) (encode ['b', 'o', 'b']) (readBuf (encode ['h', 'i']))) :=
  ((outgoing_fits_iff fun _ => 1).2.2.2 _ (encode ['h', 'i']) _ (by decide)
    (cstr_readBuf (by decide) (by decide))).mpr (by decide)

/-- `LISTU` is built in a block of five bytes, `b` stored in one of one byte, ` b x` sent in one of
ten, and a window of a name of 19 bytes fills its block. -/
theorem not_outgoing_fits :
    ¬Fits (setStringEnding noSlack clientListUser) ∧ ¬Fits (storedName (textBlock [98] 1)) ∧
      ¬Fits (toFrameBlock (textBlock [32, 98, 32, 120] 1)) ∧
        ¬Fits (childFrameBlock (fun _ => 1) (List.replicate 19 97) (readBuf [120])) := by
  have hlist : setStringEnding noSlack clientListUser = .error .outOfBounds := by decide
  have hstored : storedName (textBlock [98] 1) = .ok (textBlock [98] 0) := by decide
  have hto : toFrameBlock (textBlock [32, 98, 32, 120] 1) =
      .ok (textBlock (msgTo ++ [32, 98, 32, 120] ++ ending) 0) := by decide
  have hfree : (0 : UInt8) ∉ List.replicate 19 97 := by decide
  have hchild :=
    childFrameBlock_eq (fun _ => 1) hfree (cstr_readBuf (b := [120]) (by decide) (by decide))
  rw [if_pos (by decide)] at hchild
  refine ⟨?_, ?_, ?_, ?_⟩
  · rintro ⟨blk, s, hblk, -⟩
    rw [hlist] at hblk
    cases hblk
  · rw [hstored]
    exact not_fits_cells (by decide)
  · rw [hto]
    exact not_fits_cells (by decide)
  · rw [hchild]
    exact not_fits_cells (zero_notMem_childText hfree (by decide))

end ME2U.Client
