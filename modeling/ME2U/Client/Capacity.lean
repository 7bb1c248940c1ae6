import ME2U.Found.Runs
import ME2U.Client.Buffer

/-!
# The block behind `full_buf`

`process_string` grows its block once at most before it appends a string, by `MAXLINE`, and looks at
the four bytes in front of the end of the text after that. The first is enough, since a string is
shorter than `MAXLINE`. For the second nothing is checked: a text of fewer than four bytes is
compared from outside of its block.

* `RecvBuf.Step`: a call of `process_string`; where the comparison leaves the block, the run goes
  on.
* `RecvBuf.sized_of_reached`: in every state reached the block has the size that is on record, and
  room.
* `endingsInside_iff`: the comparison stays inside iff the strings that come with nothing pending
  have four bytes.
-/

namespace ME2U.Client

/-- What `process_string` may be given: a string that is shorter than `MAXLINE`. -/
structure GivenString where
  blk : Block
  text : Bytes
  isString : cstr blk = .ok text
  length_lt : text.length < maxline

namespace GivenString

/-- A string that is given has no NUL in it. -/
theorem zero_notMem (r : GivenString) : 0 ∉ r.text := zero_notMem_of_cstr r.isString

/-- The string of a read into a clear `read_buf`. -/
def ofRead (b : Bytes) (h : IsRead b) : GivenString := ⟨readBuf b, b, cstr_readBuf h.1 h.2, h.2⟩

@[simp] theorem blk_ofRead {b : Bytes} (h : IsRead b) : (ofRead b h).blk = readBuf b := rfl

end GivenString

/-! ## Runs -/

/-- The start: `full_buf` is a null pointer, and `increase_full_buf` is called.
Source: `client.c` `main` (lines 19–20) -/
def RecvBuf.Initial (s : RecvBuf) : Prop := increaseFullBuf.run ⟨none, 0⟩ = (.ok (), s)

/-- A call of `process_string`. -/
def RecvBuf.Step (s : RecvBuf) (r : GivenString) (s' : RecvBuf) : Prop :=
  s' = ((processString r.blk).run s).2

/-- The pending text is shorter than 2^31 - 2·`MAXLINE`, `INT_MAX` being 2^31 - 1. -/
def RecvBuf.Below (s : RecvBuf) : Prop := ∃ p, s.text = .ok p ∧ p.length < intMax + 1 - 2 * maxline

/-- The states that calls reach with such texts. -/
abbrev RecvBuf.Reached : RecvBuf → Prop :=
  Reaches RecvBuf.Initial (fun s _ => s.Below) RecvBuf.Step

/-- The block has the size on record, a positive multiple of `MAXLINE`, and behind the text in it
there are only zero bytes, at least one. -/
def RecvBuf.Sized (s : RecvBuf) : Prop :=
  ∃ blk p, s.fullBuf = some blk ∧ blk.length = s.maxSize ∧ (∃ k, 0 < k ∧ s.maxSize = k * maxline) ∧
    cstr blk = .ok p ∧ p.length < s.maxSize ∧ ∀ i, p.length ≤ i → i < s.maxSize →
      blk[i]? = some (some 0)

/-- There is room for a string: the block, grown at most once, is longer than both texts, the string
is appended in it, and the call returns unless the text is shorter than the ending. -/
def RecvBuf.MakesRoom (s : RecvBuf) (r : GivenString) : Prop :=
  ∃ p s' blk blk', s.text = .ok p ∧ (makeRoom p.length r.text.length).run s = (.ok (), s') ∧
    s'.fullBuf = some blk ∧ blk.length = s'.maxSize ∧ p.length + r.text.length < blk.length ∧
    strcat blk r.blk = .ok blk' ∧
    (4 ≤ (p ++ r.text).length → ∃ ret, ((processString r.blk).run s).1 = .ok ret)

/-- What holds in a run. -/
def RecvBuf.Holds (s : RecvBuf) : Prop := ∃ p, 0 ∉ p ∧ s = .of p

/-- At the start the text is empty. -/
theorem RecvBuf.Initial.holds {s : RecvBuf} (h : s.Initial) : s.Holds := by
  refine ⟨[], by simp, ?_⟩
  have hrun : increaseFullBuf.run ⟨none, 0⟩ = (.ok (), s) := h
  rw [run_increaseFullBuf_null] at hrun
  exact (congrArg Prod.snd hrun).symm

/-- A text of the length allowed is within the limit with the next string. -/
theorem length_lt_bufLimit {p : Bytes} (hp : p.length < intMax + 1 - 2 * maxline)
    (r : GivenString) :
    p.length < bufLimit ∧ (p ++ r.text).length < bufLimit := by
  have hshort := r.length_lt
  rw [List.length_append]
  unfold intMax maxline bufLimit at *
  omega

/-- The bound on the text, as a number. -/
theorem RecvBuf.Below.length_lt {p : Bytes} (hp : 0 ∉ p) (h : (RecvBuf.of p).Below) :
    p.length < intMax + 1 - 2 * maxline := by
  obtain ⟨q, hq, hlt⟩ := h
  rw [RecvBuf.text_of hp] at hq
  rwa [Except.ok.inj hq]

/-- **One call** leaves a text in its block. -/
theorem RecvBuf.Holds.step {s s' : RecvBuf} {r : GivenString} (h : s.Holds) (hbelow : s.Below)
    (hst : s.Step r s') : s'.Holds := by
  obtain ⟨p, hp, rfl⟩ := h
  obtain ⟨hlim, hlim'⟩ := length_lt_bufLimit (hbelow.length_lt hp) r
  obtain rfl : s' = ((processString r.blk).run (.of p)).2 := hst
  rw [run_processString hp r.isString r.length_lt hlim, if_neg (Nat.not_le.mpr hlim')]
  split_ifs with hshort
  · exact ⟨p ++ r.text, List.not_mem_append hp r.zero_notMem, rfl⟩
  · exact ⟨_, (zero_notMem_receive hp r.zero_notMem).2, rfl⟩

/-- A buffer that holds a text has the size on record. -/
theorem RecvBuf.Holds.sized {s : RecvBuf} (h : s.Holds) : s.Sized := by
  obtain ⟨p, hp, rfl⟩ := h
  have hlt := lt_capacity p.length
  refine ⟨_, p, rfl, ?_, ⟨p.length / maxline + 1, Nat.succ_pos _, Nat.mul_comm _ _⟩, ?_, hlt, ?_⟩
  · rw [length_textBlock]
    exact Nat.add_sub_of_le hlt.le
  · exact cstr_textBlock hp (by omega)
  · intro i hi hcap
    have hcap' : i < capacity p.length := hcap
    unfold textBlock zeros
    rw [List.getElem?_append_right (by simpa using hi), List.getElem?_replicate]
    exact if_pos (by rw [length_cells]; omega)

/-- It makes room for a further string. -/
theorem RecvBuf.Holds.makesRoom {s : RecvBuf} (h : s.Holds) (hbelow : s.Below) (r : GivenString) :
    s.MakesRoom r := by
  obtain ⟨p, hp, rfl⟩ := h
  obtain ⟨hlim, hlim'⟩ := length_lt_bufLimit (hbelow.length_lt hp) r
  have hroom := run_makeRoom (p := p) r.length_lt hlim
  rw [if_neg (Nat.not_le.mpr hlim')] at hroom
  have hlt := lt_capacity (p ++ r.text).length
  rw [List.length_append] at hlt
  refine ⟨p, _, _, _, RecvBuf.text_of hp, hroom, rfl, ?_, ?_,
    strcat_textBlock hp r.isString ?_, fun h4 => ?_⟩
  · rw [length_textBlock, List.length_append]
    exact Nat.add_sub_of_le (by omega)
  · rw [length_textBlock, List.length_append]
    omega
  · rw [List.length_append]
    omega
  · rw [run_processString hp r.isString r.length_lt hlim, if_neg (Nat.not_le.mpr hlim'),
      if_neg (Nat.not_lt.mpr h4)]
    exact ⟨_, rfl⟩

/-- **The capacity of the receive buffer**: in every state that calls of `process_string` reach,
with pending texts below 2^31 - 2·`MAXLINE` bytes, the block has the size on record and room for its
text, and every further call on such a text makes room for its string. -/
theorem RecvBuf.sized_of_reached {s : RecvBuf} (h : s.Reached) :
    s.Sized ∧ ∀ r, s.Below → s.MakesRoom r := by
  have hholds : s.Holds :=
    h.invariant (fun _ hinit => hinit.holds) fun _ _ _ hs hbelow hst => hs.step hbelow hst
  exact ⟨hholds.sized, fun r hbelow => hholds.makesRoom hbelow r⟩

/-- One read of four bytes, which is no ending and needs no larger block. -/
theorem RecvBuf.sized_hi : ∃ s : RecvBuf, s.Reached ∧ s.text = .ok (encode ['h', 'i', '!', '!']) ∧
    (s.Sized ∧ ∀ r, s.Below → s.MakesRoom r) := by
  have hread : IsRead (encode ['h', 'i', '!', '!']) := ⟨by decide, by decide⟩
  have hstart : (RecvBuf.of []).Initial := run_increaseFullBuf_null
  have hbelow : (RecvBuf.of []).Below := ⟨[], RecvBuf.text_of (p := []) (by simp), by decide⟩
  have hcall : (RecvBuf.of []).Step (.ofRead _ hread) (.of (encode ['h', 'i', '!', '!'])) := by
    unfold RecvBuf.Step
    rw [GivenString.blk_ofRead,
      run_processString_of_manageable (by simp) hread (by decide) ⟨by decide, by decide⟩]
    rfl
  have hreached : RecvBuf.Reached (.of (encode ['h', 'i', '!', '!'])) :=
    .step (.start hstart) hbelow hcall
  exact ⟨_, hreached, RecvBuf.text_of (by decide), RecvBuf.sized_of_reached hreached⟩

/-! ## The comparison with the ending -/

/-- The calls for strings, one after the other. -/
def processStrings : List GivenString → Eff RecvBuf Fault Unit
  | [] => pure ()
  | r :: rs => do
      let _ ← processString r.blk
      processStrings rs

/-- In every call, the bytes compared are in the block, and the length of the copy is not
negative. -/
def EndingsInside (rs : List GivenString) : Prop :=
  ((processStrings rs).run (.of [])).1 ≠ .error .outOfBounds

/-- Every string that comes with nothing pending has four bytes; behind a text that does not fit the
block nothing comes. -/
def FirstsLong : Bytes → List Bytes → Prop
  | _, [] => True
  | p, b :: bs => (p = [] → 4 ≤ b.length) ∧
      ((p ++ b).length < bufLimit → FirstsLong (receive ending p b).2 bs)

/-- What is pending is nothing, or at least four bytes. -/
theorem receive_nil_or_long {p b : Bytes} (h4 : 4 ≤ (p ++ b).length) :
    (receive ending p b).2 = [] ∨ 4 ≤ (receive ending p b).2.length := by
  unfold receive
  split_ifs
  · exact .inl rfl
  · exact .inr h4

/-- **When the comparison stays inside**, with `p` pending. -/
theorem run_processStrings_ne_iff {p : Bytes} (hp : 0 ∉ p) (hlim : p.length < bufLimit)
    (hlong : p = [] ∨ 4 ≤ p.length) (rs : List GivenString) :
    ((processStrings rs).run (.of p)).1 ≠ .error .outOfBounds ↔
      FirstsLong p (rs.map GivenString.text) := by
  induction rs generalizing p with
  | nil => simp [processStrings, FirstsLong]
  | cons r rs ih =>
      have hcall := run_processString hp r.isString r.length_lt hlim
      have hfirst : 4 ≤ (p ++ r.text).length ↔ (p = [] → 4 ≤ r.text.length) := by
        rcases hlong with rfl | h4
        · simp
        · rw [List.length_append]
          refine iff_of_true (by omega) ?_
          rintro rfl
          simp at h4
      unfold processStrings
      rw [List.map_cons, FirstsLong, ← hfirst]
      by_cases hover : bufLimit ≤ (p ++ r.text).length
      · -- the block cannot grow: nothing is compared
        have hmax : 4 ≤ bufLimit := by decide
        rw [if_pos hover] at hcall
        rw [Eff.run_bind_error hcall]
        exact iff_of_true (by simp) ⟨by omega, fun hlt => absurd hover (Nat.not_le.mpr hlt)⟩
      rw [if_neg hover] at hcall
      by_cases hshort : (p ++ r.text).length < 4
      · rw [if_pos hshort] at hcall
        rw [Eff.run_bind_error hcall]
        exact iff_of_false (by simp) fun h => absurd h.1 (Nat.not_le.mpr hshort)
      have h4 : 4 ≤ (p ++ r.text).length := Nat.not_lt.mp hshort
      rw [if_neg hshort] at hcall
      rw [Eff.run_bind_ok hcall, ih (zero_notMem_receive hp r.zero_notMem).2
        (length_receive_lt ⟨h4, Nat.not_le.mp hover⟩) (receive_nil_or_long h4)]
      exact ⟨fun h => ⟨h4, fun _ => h⟩, fun h => h.2 (Nat.not_le.mp hover)⟩

/-- **The comparison with the ending** stays inside of `full_buf` in a sequence of calls iff every
string that comes with nothing pending, at the start or behind a frame, has at least four bytes. -/
theorem endingsInside_iff (rs : List GivenString) :
    EndingsInside rs ↔ FirstsLong [] (rs.map GivenString.text) :=
  run_processStrings_ne_iff (by simp) (by decide) (.inl rfl) rs

/-- The empty string behind a `read` that failed is compared from in front of the block. -/
theorem not_endingsInside : ¬∀ rs, EndingsInside rs := by
  intro hall
  have hread : IsRead [] := ⟨by simp, by decide⟩
  have hcall :=
    run_processString (p := []) (by simp) (cstr_readBuf hread.1 hread.2) hread.2 (by decide)
  rw [if_neg (by decide), if_pos (by decide)] at hcall
  apply hall [.ofRead [] hread]
  unfold processStrings
  rw [GivenString.blk_ofRead, Eff.run_bind_error hcall]

end ME2U.Client
