import ME2U.Client.Outgoing

/-!
# What the frames of the windows say

`any_children_replied` reads from one window after the other, always into `read_buf`, and measures
what it has read with `strlen`. What an earlier read has left behind the bytes just read is sent
with them. The verb has no space behind it.

* `framesFrom`: the frames of the windows that are ready; `run_anyChildrenReplied_data` finds them
  in what the loop writes.
* `leftover`: the string in `read_buf` behind the bytes just read.
* `getElem?_framesFrom`: each frame, by what `read_buf` held when its window was read.
* `apart_iff`: when the frames say what was typed, and when they depend on that alone.
-/

namespace ME2U.Client

/-! ## The windows that are ready -/

section Ready

variable (rset : List ℕ)

/-- A window that is read from.
Source: `client.c` `any_children_replied` (lines 326–327, 347) -/
def UserStruct.Ready (u : UserStruct) : Prop := u.active ∧ (u.rd ∈ rset ∨ u.wrt ∈ rset)

instance (u : UserStruct) : Decidable (u.Ready rset) := inferInstanceAs (Decidable (_ ∧ _))

/-- The users whose windows are read from, in their order. -/
def Process.readyUsers (c : Process) : List UserStruct := c.users.filter fun u => u.Ready rset

end Ready

/-- The indices of a list find its elements. -/
theorem filterMap_range_getElem? {α : Type} (l : List α) :
    (List.range l.length).filterMap (fun i => l[i]?) = l := by
  induction l with
  | nil => rfl
  | cons a l ih =>
      rw [List.length_cons, List.range_succ_eq_map, List.filterMap_cons, List.filterMap_map]
      exact congrArg (a :: ·) ih

/-! ## The frames -/

/-- What is typed in the windows can be read: something, without NULs, shorter than `MAXLINE`. -/
def Typable (us : List UserStruct) (data : ℕ → Bytes) : Prop :=
  ∀ u ∈ us, data u.rd ≠ [] ∧ IsRead (data u.rd)

/-- The frames of users, one behind the other, up to one that does not fit. -/
def framesFrom (slack : Slack) (data : ℕ → Bytes) : Bytes → List UserStruct → List Bytes
  | _, [] => []
  | held, u :: us =>
      match childFrame slack u.username (cells (laidOver (data u.rd) held)) with
      | .ok newStr => newStr :: framesFrom slack data (laidOver (data u.rd) held) us
      | .error _ => []

/-- What is written for a frame. -/
def writesOf (newStr : Bytes) : List (Fd × Bytes) := [(.stdout, newStr), (.sock, newStr)]

/-- A read is laid over what is in the buffer. -/
theorem store_cells {b held : Bytes} (h : b.length ≤ held.length) :
    store (cells held) 0 (cells b) = .ok (cells (laidOver b held)) := by
  have hstore := store_cells_textBlock (b := b) (r := held) (n := 0) h
  have hlen : held.length + 0 - (laidOver b held).length = 0 := by
    rw [length_laidOver]
    omega
  rw [hlen] at hstore
  simpa [textBlock, zeros] using hstore

/-- A read from a window, and the frame for it. -/
theorem run_childReplied_data (slack : Slack) (i : ℕ) (u : UserStruct) {b held : Bytes}
    (h : b.length ≤ held.length) (c : Process) :
    (childReplied slack i u (cells held) (.data b)).run c =
      match childFrame slack u.username (cells (laidOver b held)) with
      | .ok newStr =>
        (.ok (cells (laidOver b held)), { c with wrote := c.wrote ++ writesOf newStr })
      | .error f => (.error (.fault f), c) := by
  unfold childReplied
  dsimp only
  rw [store_cells h, run_mem_ok_bind]
  cases childFrame slack u.username (cells (laidOver b held)) with
  | error f => rfl
  | ok newStr =>
      rw [run_mem_ok_bind, run_write_bind, run_write_bind, Eff.run_pure, List.append_assoc]
      rfl

/-- The loop handles the user at an index, and goes on. -/
theorem run_anyChildrenReplied_cons (slack : Slack) (rset : List ℕ) (pipe : ℕ → ReadResult) {i : ℕ}
    {is : List ℕ} (blk : Block) {c : Process} {u : UserStruct} (hu : c.users[i]? = some u) :
    (anyChildrenReplied slack rset pipe (i :: is) blk).run c =
      (if u.Ready rset then
        childReplied slack i u blk (pipe u.rd) >>= anyChildrenReplied slack rset pipe is
      else anyChildrenReplied slack rset pipe is blk).run c := by
  rw [anyChildrenReplied, Eff.run_get_bind, hu]
  rfl

/-- The loop over users of which `us` are those that are ready. -/
theorem run_anyChildrenReplied_of_filterMap {slack : Slack} {rset : List ℕ} {data : ℕ → Bytes}
    {is : List ℕ} {us : List UserStruct} {c : Process} {held : Bytes}
    (his : ∀ i ∈ is, i < c.users.length)
    (hus : (is.filterMap (fun i => c.users[i]?)).filter (fun u => u.Ready rset) = us)
    (hdata : ∀ u ∈ us, (data u.rd).length ≤ held.length) :
    ((anyChildrenReplied slack rset (fun n => .data (data n)) is (cells held)).run c).2 =
      { c with wrote := c.wrote ++ (framesFrom slack data held us).flatMap writesOf } := by
  induction is generalizing us c held with
  | nil =>
      obtain rfl : us = [] := hus.symm
      simp [anyChildrenReplied, framesFrom]
  | cons i is ih =>
      obtain ⟨u, hu⟩ : ∃ u, c.users[i]? = some u := ⟨_, List.getElem?_eq_getElem (his i (by simp))⟩
      have his' : ∀ j ∈ is, j < c.users.length := fun j hj => his j (by simp [hj])
      rw [List.filterMap_cons_some hu, List.filter_cons] at hus
      rw [run_anyChildrenReplied_cons _ _ _ _ hu]
      by_cases hready : u.Ready rset
      · -- the window is read from
        obtain ⟨rest, hrest⟩ : ∃ rest,
            (is.filterMap (fun i => c.users[i]?)).filter (fun u => u.Ready rset) = rest := ⟨_, rfl⟩
        rw [if_pos (by simpa using hready), hrest] at hus
        subst hus
        have hlen : (data u.rd).length ≤ held.length := hdata u (by simp)
        have hlens : ∀ v ∈ rest, (data v.rd).length ≤ (laidOver (data u.rd) held).length := by
          intro v hv
          rw [length_laidOver]
          exact (hdata v (by simp [hv])).trans (Nat.le_max_right _ _)
        have hrun := run_childReplied_data slack i u hlen c
        rw [if_pos hready, framesFrom]
        cases hframe : childFrame slack u.username (cells (laidOver (data u.rd) held)) with
        | error f =>
            rw [hframe] at hrun
            rw [Eff.run_bind_error hrun]
            simp
        | ok newStr =>
            rw [hframe] at hrun
            rw [Eff.run_bind_ok hrun,
              ih (c := { c with wrote := c.wrote ++ writesOf newStr }) his' hrest hlens]
            simp
      · rw [if_neg (by simpa using hready)] at hus
        rw [if_neg hready]
        exact ih his' hus hdata

/-- **What the loop writes** for what is typed: the frames of the windows that are ready. -/
theorem run_anyChildrenReplied_data {slack : Slack} {rset : List ℕ} {data : ℕ → Bytes} {c : Process}
    {held : Bytes} (hheld : held.length = maxline) (hdata : Typable (c.readyUsers rset) data) :
    ((anyChildrenReplied slack rset (fun n => .data (data n)) (List.range c.users.length)
        (cells held)).run c).2 =
      { c with wrote := c.wrote ++ (framesFrom slack data held
        (c.readyUsers rset)).flatMap writesOf } := by
  apply run_anyChildrenReplied_of_filterMap
  · intro i hi
    exact List.mem_range.mp hi
  · rw [filterMap_range_getElem?]
    rfl
  · intro u hu
    rw [hheld]
    exact (hdata u hu).2.length_lt.le

/-! ## What is left in `read_buf` -/

/-- The string in `read_buf` behind the bytes that were read over what it held, if it ends there. -/
def leftover (b held : Bytes) : Option Bytes := (cstr (cells (held.drop b.length))).toOption

/-- What `read_buf` holds behind the reads from windows. -/
def heldAfter (data : ℕ → Bytes) (held : Bytes) (us : List UserStruct) : Bytes :=
  us.foldl (fun h u => laidOver (data u.rd) h) held

/-- Nothing is left over where a NUL stands behind the read. -/
theorem leftover_eq_none_iff {b held : Bytes} :
    leftover b held = none ↔ 0 ∉ held.drop b.length := by
  unfold leftover
  rw [toOption_cstr_cells, ← Option.not_isSome_iff_eq_none, isSome_upTo_iff]
  simp

/-- Where the string just read has no end, neither has one that is read over it. -/
theorem leftover_heldAfter_eq_none {data : ℕ → Bytes} {held : Bytes} {us : List UserStruct}
    (hdata : ∀ u ∈ us, 0 ∉ data u.rd) (h : 0 ∉ held) (b : Bytes) :
    leftover b (heldAfter data held us) = none := by
  rw [leftover_eq_none_iff]
  apply mt List.mem_of_mem_drop
  induction us generalizing held with
  | nil => exact h
  | cons u us ih =>
      apply ih fun v hv => hdata v (by simp [hv])
      exact List.not_mem_append (hdata u (by simp)) fun hmem => h (List.mem_of_mem_drop hmem)

/-- The frame of a window is made of what was read and what is left behind it. -/
theorem childFrame_laidOver (slack : Slack) {username b : Bytes} (hu : 0 ∉ username) (hb : 0 ∉ b)
    (held : Bytes) :
    (childFrame slack username (cells (laidOver b held))).toOption =
      if slack (cells username) ≠ 0 ∧ username.length ≤ 18 then
        (leftover b held).map fun l => childText username (b ++ l)
      else none := by
  have hcstr : cstr (cells (laidOver b held)) =
      (cstr (cells (held.drop b.length))).map (b ++ ·) := by
    rw [laidOver, cells_append, cstr_cells_append_eq hb]
  cases hl : cstr (cells (held.drop b.length)) with
  | error f =>
      rw [hl] at hcstr
      rw [childFrame, strlen, hcstr, leftover, hl]
      exact (ite_self _).symm
  | ok l =>
      rw [hl] at hcstr
      rw [childFrame_of_cstr slack hu hcstr, leftover, hl]
      split_ifs <;> rfl

/-- **Each frame**: it is sent if the usernames up to it are short and a NUL stands in `read_buf`
behind what was read, and says all that stands before that. -/
theorem getElem?_framesFrom {slack : Slack} {data : ℕ → Bytes} {us : List UserStruct}
    (hnames : ∀ u ∈ us, 0 ∉ u.username) (hdata : ∀ u ∈ us, 0 ∉ data u.rd) {held : Bytes} {k : ℕ}
    {u : UserStruct} (hk : us[k]? = some u) :
    (framesFrom slack data held us)[k]? =
      if ∀ v ∈ us.take (k + 1), slack (cells v.username) ≠ 0 ∧ v.username.length ≤ 18 then
        (leftover (data u.rd) (heldAfter data held (us.take k))).map fun l =>
          childText u.username (data u.rd ++ l)
      else none := by
  induction us generalizing held k with
  | nil => cases hk
  | cons v us ih =>
      have hframe := childFrame_laidOver slack (hnames v (by simp)) (hdata v (by simp)) held
      have hdata' : ∀ w ∈ us, 0 ∉ data w.rd := fun w hw => hdata w (by simp [hw])
      rw [framesFrom]
      cases k with
      | zero =>
          obtain rfl : v = u := by simpa using hk
          have hone : (∀ w ∈ (v :: us).take (0 + 1), slack (cells w.username) ≠ 0 ∧
            w.username.length ≤ 18) ↔
              slack (cells v.username) ≠ 0 ∧ v.username.length ≤ 18 := by
            simp
          simp only [hone]
          rw [List.take_zero, heldAfter, List.foldl_nil, ← hframe]
          cases childFrame slack v.username (cells (laidOver (data v.rd) held)) <;> rfl
      | succ k =>
          have hk' : us[k]? = some u := by simpa using hk
          have hall : (∀ w ∈ (v :: us).take (k + 1 + 1),
              slack (cells w.username) ≠ 0 ∧ w.username.length ≤ 18) ↔
                (slack (cells v.username) ≠ 0 ∧ v.username.length ≤ 18) ∧
                  ∀ w ∈ us.take (k + 1), slack (cells w.username) ≠ 0 ∧ w.username.length ≤ 18 := by
            rw [List.take_succ_cons, List.forall_mem_cons]
          have hheld : heldAfter data held ((v :: us).take (k + 1)) =
              heldAfter data (laidOver (data v.rd) held) (us.take k) := rfl
          simp only [hall, hheld]
          cases hchild : childFrame slack v.username (cells (laidOver (data v.rd) held)) with
          | ok newStr =>
              rw [hchild] at hframe
              have hv : slack (cells v.username) ≠ 0 ∧ v.username.length ≤ 18 := by
                by_contra hno
                rw [if_neg hno] at hframe
                cases hframe
              rw [List.getElem?_cons_succ, ih (fun w hw => hnames w (by simp [hw])) hdata' hk']
              simp only [and_iff_right hv]
          | error f =>
              rw [hchild] at hframe
              dsimp only
              rw [List.getElem?_nil]
              split_ifs with hfits
              · -- what is in `read_buf` has no end, then or later
                rw [if_pos hfits.1] at hframe
                have hnone : leftover (data v.rd) held = none :=
                  Option.map_eq_none_iff.mp hframe.symm
                have hzero : 0 ∉ laidOver (data v.rd) held :=
                  List.not_mem_append (hdata v (by simp)) (leftover_eq_none_iff.mp hnone)
                rw [leftover_heldAfter_eq_none (fun w hw => hdata' w (List.mem_of_mem_take hw))
                  hzero]
                rfl
              · rfl

/-- There is at most one frame for each user. -/
theorem length_framesFrom_le (slack : Slack) (data : ℕ → Bytes) (held : Bytes)
    (us : List UserStruct) :
    (framesFrom slack data held us).length ≤ us.length := by
  induction us generalizing held with
  | nil => exact Nat.le_refl _
  | cons u us ih =>
      rw [framesFrom]
      cases childFrame slack u.username (cells (laidOver (data u.rd) held)) with
      | ok newStr => exact Nat.succ_le_succ (ih _)
      | error f => exact Nat.zero_le _

/-! ## One call -/

/-- A call of `any_children_replied`: `read_buf` holds anything, and each window that is ready has
something typed. -/
structure WindowCall (c : Process) (rset : List ℕ) where
  held : Bytes
  data : ℕ → Bytes
  length_held : held.length = maxline
  typable : Typable (c.readyUsers rset) data

/-- The frame of what is typed in a window: verb, name and text. -/
def cleanFrame (username d : Bytes) : Bytes := msgTo ++ [32] ++ username ++ [32] ++ d ++ ending

namespace WindowCall

variable {c : Process} {rset : List ℕ}

/-- The frames that are sent. -/
def frames (slack : Slack) (call : WindowCall c rset) : List Bytes :=
  ((((anyChildrenReplied slack rset (fun n => .data (call.data n)) (List.range c.users.length)
    (cells call.held)).run c).2.wrote.drop c.wrote.length).filter fun x => x.1 = .sock).map Prod.snd

/-- What is left in `read_buf` behind the bytes of the `k`-th window that is ready. -/
def behind (call : WindowCall c rset) (k : ℕ) (u : UserStruct) : Option Bytes :=
  leftover (call.data u.rd) (heldAfter call.data call.held ((c.readyUsers rset).take k))

/-- Every window that is ready sends its frame, and it says what was typed. -/
def Exact (slack : Slack) (call : WindowCall c rset) : Prop :=
  call.frames slack = (c.readyUsers rset).map fun u => cleanFrame u.username (call.data u.rd)

/-- The usernames up to the `k`-th window that is ready fit their frames. -/
def Short (slack : Slack) (c : Process) (rset : List ℕ) (k : ℕ) : Prop :=
  ∀ v ∈ (c.readyUsers rset).take (k + 1), slack (cells v.username) ≠ 0 ∧ v.username.length ≤ 18

instance (slack : Slack) (c : Process) (rset : List ℕ) (k : ℕ) : Decidable (Short slack c rset k) :=
  inferInstanceAs (Decidable (∀ v ∈ (c.readyUsers rset).take (k + 1), _))

/-- The frames of a call are those from its users. -/
theorem frames_eq (slack : Slack) (call : WindowCall c rset) :
    call.frames slack = framesFrom slack call.data call.held (c.readyUsers rset) := by
  have hsock : ∀ fs : List Bytes,
      ((fs.flatMap writesOf).filter fun x => x.1 = .sock).map Prod.snd = fs := by
    intro fs
    induction fs with
    | nil => rfl
    | cons f fs ih => simpa [writesOf] using ih
  unfold frames
  rw [run_anyChildrenReplied_data call.length_held call.typable]
  dsimp only
  rw [List.drop_left, hsock]

/-- **Each frame** of a call. -/
theorem getElem?_frames (slack : Slack) (hnames : ∀ u ∈ c.users, IsWord u.username)
    (call : WindowCall c rset) {k : ℕ} {u : UserStruct} (hk : (c.readyUsers rset)[k]? = some u) :
    (call.frames slack)[k]? =
      if Short slack c rset k then
        (call.behind k u).map fun l => childText u.username (call.data u.rd ++ l)
      else none := by
  rw [frames_eq]
  apply getElem?_framesFrom _ _ hk
  · intro v hv
    exact (hnames v (List.mem_of_mem_filter hv)).zero_notMem
  · intro v hv
    exact (call.typable v hv).2.zero_notMem

/-- A text with something behind it is the text behind a space only if all is spaces. -/
theorem append_eq_cons_space_iff (d l : Bytes) : d ++ l = 32 ::
    d ↔ (∀ b ∈ d, b = 32) ∧ l = [32] := by
  induction d with
  | nil => simp
  | cons a d ih =>
      rw [List.cons_append, List.cons.injEq, List.forall_mem_cons]
      constructor
      · rintro ⟨rfl, h⟩
        obtain ⟨hd, hl⟩ := ih.mp h
        exact ⟨⟨rfl, hd⟩, hl⟩
      · rintro ⟨⟨rfl, hd⟩, hl⟩
        exact ⟨rfl, ih.mpr ⟨hd, hl⟩⟩

/-- A frame lacks the space behind its verb; it is the right one only where a space that is left
makes up for that, for a nameless user who has typed nothing but spaces. -/
theorem childText_eq_cleanFrame_iff {username : Bytes} (hu : IsWord username) (d l : Bytes) :
    childText username (d ++ l) = cleanFrame username d ↔
      username = [] ∧ (∀ b ∈ d, b = 32) ∧ l = [32] := by
  have hcancel : childText username (d ++ l) = cleanFrame username d ↔
      username ++ 32 :: (d ++ l) = 32 :: (username ++ 32 :: d) := by
    simp only [childText, cleanFrame, List.append_assoc, List.cons_append, List.nil_append]
    rw [List.append_cancel_left_eq]
    constructor
    · intro h
      have happ : (username ++ 32 :: (d ++ l)) ++ ending =
          (32 :: (username ++ 32 :: d)) ++ ending := by
        simpa using h
      exact List.append_cancel_right happ
    · intro h
      simpa using congrArg (· ++ ending) h
  rw [hcancel, ← append_eq_cons_space_iff]
  cases username with
  | nil => simp
  | cons a w =>
      have ha : a ≠ 32 := fun h => hu a List.mem_cons_self (by rw [h]; decide)
      simp [ha]

/-- A call sends at most one frame for each user that is ready. -/
theorem length_frames_le (slack : Slack) (call : WindowCall c rset) :
    (call.frames slack).length ≤ (c.readyUsers rset).length := by
  rw [frames_eq]
  exact length_framesFrom_le _ _ _ _

/-- A user whose frame is the right one in spite of the space that its verb lacks. -/
def Disguised (call : WindowCall c rset) (k : ℕ) (u : UserStruct) : Prop :=
  u.username = [] ∧ (∀ b ∈ call.data u.rd, b = 32) ∧ call.behind k u = some [32]

/-- **Which calls are exact**: those in which no window is ready, or each that is belongs to a user
of the empty name, who has typed nothing but spaces over a text that is one space longer. -/
theorem exact_iff (slack : Slack) (hnames : ∀ u ∈ c.users, IsWord u.username)
    (call : WindowCall c rset) :
    call.Exact slack ↔ ∀ k u, (c.readyUsers rset)[k]? = some u →
      slack (cells u.username) ≠ 0 ∧ call.Disguised k u := by
  have hword : ∀ {k : ℕ} {u : UserStruct}, (c.readyUsers rset)[k]? = some u → IsWord u.username :=
    fun hk =>
    hnames _ (List.mem_of_mem_filter (List.mem_of_getElem? hk))
  constructor
  · intro h k u hk
    have hframe := call.getElem?_frames slack hnames hk
    rw [h, List.getElem?_map, hk] at hframe
    split_ifs at hframe with hshort
    · obtain ⟨l, hl, htext⟩ := Option.map_eq_some_iff.mp hframe.symm
      obtain ⟨hname, hspaces, rfl⟩ := (childText_eq_cleanFrame_iff (hword hk) _ l).mp htext
      have hmem : u ∈ (c.readyUsers rset).take (k + 1) :=
        List.mem_of_getElem? (i := k) (by rw [List.getElem?_take_of_lt (Nat.lt_succ_self k), hk])
      exact ⟨(hshort u hmem).1, hname, hspaces, hl⟩
    · cases hframe
  · intro h
    unfold Exact
    apply List.ext_getElem?
    intro k
    rw [List.getElem?_map]
    cases hk : (c.readyUsers rset)[k]? with
    | none =>
        have hlen := call.length_frames_le slack
        rw [List.getElem?_eq_none_iff] at hk
        exact List.getElem?_eq_none (hlen.trans hk)
    | some u =>
        obtain ⟨hslack, hname, hspaces, hl⟩ := h k u hk
        have hshort : Short slack c rset k := by
          intro v hv
          obtain ⟨j, hj⟩ := List.mem_iff_getElem?.mp (List.mem_of_mem_take hv)
          refine ⟨(h j v hj).1, ?_⟩
          rw [(h j v hj).2.1]
          exact Nat.zero_le _
        rw [call.getElem?_frames slack hnames hk, if_pos hshort, hl]
        exact congrArg some ((childText_eq_cleanFrame_iff (hword hk) _ _).mpr ⟨hname, hspaces, rfl⟩)

/-- **Windows that do not leak into each other**: a call is exact only where no window is ready (but
for disguised users); and what is sent for a window depends on what was typed in it alone, between
two calls, iff the same is left behind it in `read_buf`, or the frame is not sent for the length of
a username. -/
theorem apart_iff (slack : Slack) (hnames : ∀ u ∈ c.users, IsWord u.username) :
    (∀ call : WindowCall c rset, call.Exact slack ↔
      ∀ k u, (c.readyUsers rset)[k]? = some u → slack (cells u.username) ≠ 0 ∧ call.Disguised k u) ∧
    ∀ (call call' : WindowCall c rset) (k : ℕ) (u : UserStruct), (c.readyUsers rset)[k]? = some u →
      call.data u.rd = call'.data u.rd →
        ((call.frames slack)[k]? = (call'.frames slack)[k]? ↔
          (Short slack c rset k → call.behind k u = call'.behind k u)) := by
  refine ⟨exact_iff slack hnames, ?_⟩
  intro call call' k u hk hsame
  rw [call.getElem?_frames slack hnames hk, call'.getElem?_frames slack hnames hk, ← hsame]
  by_cases hshort : Short slack c rset k
  · have hinj : Function.Injective fun l => childText u.username (call.data u.rd ++ l) := by
      intro l l' h
      simpa [childText] using h
    rw [if_pos hshort, if_pos hshort, (Option.map_injective hinj).eq_iff]
    exact ⟨fun h _ => h, fun h => h hshort⟩
  · rw [if_neg hshort, if_neg hshort]
    exact ⟨fun _ h => absurd h hshort, fun _ => rfl⟩

end WindowCall

/-- A client with a window for `b`. -/
private def typingClient : Process := ⟨.of [], [⟨[98], 0, 0, 4, 5, true⟩], 6, []⟩

/-- The names are words. -/
private theorem isWord_typingClient : ∀ u ∈ typingClient.users, IsWord u.username := by decide

/-- What is typed is a read. -/
private theorem isRead_typed : ([104] : Bytes) ≠ [] ∧ IsRead [104] :=
  ⟨by decide, by decide, by decide⟩

/-- `h` is typed in the window, and `read_buf` holds `r`. -/
private def typedOver (r : Bytes) (hr : r.length ≤ maxline) : WindowCall typingClient [4] where
  held := r ++ List.replicate (maxline - r.length) 0
  data := fun _ => [104]
  length_held := by simp; omega
  typable := fun _ _ => isRead_typed

/-- The same is sent over texts that are as short as what was typed. -/
theorem WindowCall.apart_h : ((typedOver [] (by decide)).frames fun _ => 1)[0]? =
    ((typedOver [120] (by decide)).frames fun _ => 1)[0]? :=
  ((WindowCall.apart_iff (fun _ => 1) isWord_typingClient).2 (typedOver [] (by decide))
    (typedOver [120] (by decide)) 0 _ rfl rfl).mpr fun _ => rfl

/-- The frame of `h` for `b` has no space behind the verb, and over `xyz` it says `hyz`. -/
theorem WindowCall.not_apart : ¬((∀ slack c rset (call : WindowCall c rset),
    (∀ u ∈ c.users, IsWord u.username) → call.Exact slack) ∨
      ∀ slack c rset (call call' : WindowCall c rset) (k : ℕ) (u : UserStruct),
        (∀ u ∈ c.users, IsWord u.username) → (c.readyUsers rset)[k]? = some u →
          call.data u.rd = call'.data u.rd →
            (call.frames slack)[k]? = (call'.frames slack)[k]?) := by
  rintro (hall | hall)
  · have h := hall (fun _ => 1) typingClient [4] (typedOver [] (by decide)) isWord_typingClient
    rw [WindowCall.exact_iff (fun _ => 1) isWord_typingClient] at h
    exact absurd (h 0 _ rfl).2.1 (by decide)
  · have h := hall (fun _ => 1) typingClient [4] (typedOver [] (by decide))
      (typedOver [120, 121, 122] (by decide)) 0 _
      isWord_typingClient rfl rfl
    rw [WindowCall.getElem?_frames (fun _ => 1) isWord_typingClient _ rfl,
      WindowCall.getElem?_frames (fun _ => 1) isWord_typingClient _ rfl] at h
    exact absurd h (by decide)

end ME2U.Client
