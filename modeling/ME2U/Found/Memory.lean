import Mathlib.Data.List.Infix
import Mathlib.Data.List.TakeDrop
import Mathlib.Tactic.Common
import ME2U.Found.Delimited
import ME2U.Found.Text

/-!
# Blocks of C memory and the strings in them

A block of memory is a list of cells, a cell being a byte or not yet written. A pointer into a
block is the part of the block from the pointer on, so that moving it forward is `List.drop` and
what lies behind the block is the empty list. Reading past the end, reading a cell that was never
written and writing past the end are faults; the string functions of C are defined so that they
fault exactly where the C functions leave their block.

* `cstr` is the string at a pointer, up to the first NUL; `strlen` is its length.
* `strncmpEq` and `strcmpEq` say whether the C functions give zero; `strtok` lists the tokens that
  the C function finds in successive calls.
* `textBlock s n` is the block that holds the text `s` and then `n` zero bytes. On such blocks the
  functions have closed forms: `cstr_textBlock`, `strcat_textBlock`, `memset_append`.
-/

namespace ME2U

/-- What makes the behaviour of a C program undefined. -/
inductive Fault
  /-- A read or a write outside of its block. -/
  | outOfBounds
  /-- A read of a cell that was never written. -/
  | uninitialised
  /-- An access through a null pointer. -/
  | nullPointer
  /-- A signed addition that does not fit. -/
  | intOverflow
  deriving DecidableEq, Repr

/-- A byte of memory, `none` before it is first written. -/
abbrev Cell := Option UInt8

/-- A block of memory, or the part of one from a pointer on. -/
abbrev Block := List Cell

/-- The text as memory, without a terminating NUL. -/
def cells (s : Bytes) : Block := s.map some

/-- `n` zero bytes. -/
def zeros (n : ℕ) : Block := List.replicate n (some 0)

/-- The text `s` and then `n` zero bytes. -/
def textBlock (s : Bytes) (n : ℕ) : Block := cells s ++ zeros n

@[simp] theorem length_cells (s : Bytes) : (cells s).length = s.length := by simp [cells]

@[simp] theorem length_zeros (n : ℕ) : (zeros n).length = n := by simp [zeros]

@[simp] theorem length_textBlock (s : Bytes) (n : ℕ) : (textBlock s n).length = s.length + n := by
  simp [textBlock]

@[simp] theorem cells_append (s t : Bytes) : cells (s ++ t) = cells s ++ cells t := by simp [cells]

@[simp] theorem cells_nil : cells [] = [] := rfl

theorem zeros_add (m n : ℕ) : zeros (m + n) = zeros m ++ zeros n :=
  List.replicate_add m n _

theorem zeros_succ (n : ℕ) : zeros (n + 1) = some 0 :: zeros n := rfl

/-- Moving a pointer over a beginning of the text. -/
theorem drop_textBlock (s t : Bytes) (n : ℕ) :
    (textBlock (s ++ t) n).drop s.length = textBlock t n := by
  rw [textBlock, cells_append, List.append_assoc, List.drop_left' (length_cells s)]
  rfl

/-! ## Allocation -/

/-- A new block, its bytes not yet written. -/
def malloc (n : ℕ) : Block := List.replicate n none

/-- A new block of zero bytes. -/
def calloc (n : ℕ) : Block := zeros n

/-- A block of another size with the same contents, as far as both reach. -/
def realloc (blk : Block) (n : ℕ) : Block := blk.take n ++ List.replicate (n - blk.length) none

/-! ## Reading and writing -/

/-- Write `src` over `blk` from `off` on. -/
def store (blk : Block) (off : ℕ) (src : Block) : Except Fault Block :=
  if off + src.length ≤ blk.length then .ok (blk.take off ++ src ++ blk.drop (off + src.length))
  else .error .outOfBounds

/-- Set `n` bytes to `v` from `off` on. -/
def memset (blk : Block) (off : ℕ) (v : UInt8) (n : ℕ) : Except Fault Block :=
  store blk off (List.replicate n (some v))

/-- Copy the first `n` bytes of `src` to the front of `blk`. -/
def memcpy (blk src : Block) (n : ℕ) : Except Fault Block :=
  if n ≤ src.length then store blk 0 (src.take n) else .error .outOfBounds

/-- The string at a pointer: the bytes up to the first NUL. -/
def cstr : Block → Except Fault Bytes
  | [] => .error .outOfBounds
  | none :: _ => .error .uninitialised
  | some b :: p => if b = 0 then .ok [] else (cstr p).map (b :: ·)

/-- The length of the string at a pointer. -/
def strlen (p : Block) : Except Fault ℕ := (cstr p).map List.length

/-- Append the string at `src`, with its NUL, to the string at `dst`. -/
def strcat (dst src : Block) : Except Fault Block := do
  let d ← cstr dst
  let s ← cstr src
  store dst d.length (cells s ++ [some 0])

/-- Whether `strncmp` of the string at a pointer and a literal without NULs gives zero: at most
`n` bytes are compared, and none behind a NUL of either. -/
def strncmpEq : Block → Bytes → ℕ → Except Fault Bool
  | _, _, 0 => .ok true
  | [], _, _ + 1 => .error .outOfBounds
  | none :: _, _, _ + 1 => .error .uninitialised
  | some a :: _, [], _ + 1 => .ok (a == 0)
  | some a :: p, b :: lit, n + 1 => if a = b then strncmpEq p lit n else .ok false

/-- Whether `strcmp` of two strings gives zero. -/
def strcmpEq : Block → Block → Except Fault Bool
  | [], _ => .error .outOfBounds
  | none :: _, _ => .error .uninitialised
  | some _ :: _, [] => .error .outOfBounds
  | some _ :: _, none :: _ => .error .uninitialised
  | some a :: p, some b :: q =>
      if a = b then if a = 0 then .ok true else strcmpEq p q else .ok false

/-- The tokens that `strtok` finds in a string, one call after the other, with one separator; `tok`
is what has been read of the current one. -/
def strtokFrom (sep : UInt8) : Bytes → Bytes → List Bytes
  | tok, [] => if tok = [] then [] else [tok]
  | tok, b :: s =>
      if b = sep then
        if tok = [] then strtokFrom sep [] s else tok :: strtokFrom sep [] s
      else strtokFrom sep (tok ++ [b]) s

/-- The tokens of a string. -/
def strtok (sep : UInt8) (s : Bytes) : List Bytes := strtokFrom sep [] s

/-! ## Sequences that may fail -/

@[simp] theorem ok_bind {α β : Type} (a : α) (f : α → Except Fault β) : (Except.ok a >>= f) = f a :=
  rfl

@[simp] theorem error_bind {α β : Type} (e : Fault) (f : α → Except Fault β) :
    (Except.error e >>= f) = .error e := rfl

/-- What was tried first where a sequence succeeds. -/
theorem exists_of_bind_eq_ok {α β : Type} {x : Except Fault α} {f : α → Except Fault β} {b : β}
    (h : (x >>= f) = .ok b) : ∃ a, x = .ok a ∧ f a = .ok b := by
  cases x with
  | error e => cases h
  | ok a => exact ⟨a, rfl, h⟩

/-! ## Strings in blocks -/

theorem cstr_cells_append {s : Bytes} (hs : 0 ∉ s) (rest : Block) :
    cstr (cells s ++ some 0 :: rest) = .ok s := by
  induction s with
  | nil => rfl
  | cons b s ih =>
      have hb : b ≠ 0 := fun h => hs (h ▸ List.mem_cons_self)
      have := ih fun h => hs (List.mem_cons_of_mem b h)
      simp only [cells, List.map_cons, List.cons_append, cstr, if_neg hb] at this ⊢
      rw [this]
      rfl

/-- The string in a text block is its text. -/
theorem cstr_textBlock {s : Bytes} (hs : 0 ∉ s) {n : ℕ} (hn : n ≠ 0) :
    cstr (textBlock s n) = .ok s := by
  obtain ⟨n, rfl⟩ := Nat.exists_eq_succ_of_ne_zero hn
  exact cstr_cells_append hs (zeros n)

/-- The string at a pointer to written bytes. -/
theorem toOption_cstr_cells (s : Bytes) : (cstr (cells s)).toOption = upTo (· = 0) s := by
  induction s with
  | nil => rfl
  | cons b s ih =>
      simp only [cells, List.map_cons, cstr] at ih ⊢
      by_cases hb : b = 0
      · rw [if_pos hb, upTo_cons_of_pos (P := (· = 0)) hb]
        rfl
      · rw [if_neg hb, upTo_cons_of_neg (P := (· = 0)) hb, ← ih]
        cases cstr (s.map some) <;> rfl

/-- A text that fills its block has no NUL behind it. -/
theorem cstr_cells_of_notMem {s : Bytes} (hs : 0 ∉ s) : cstr (cells s) = .error .outOfBounds := by
  induction s with
  | nil => rfl
  | cons b s ih =>
      have hb : b ≠ 0 := fun h => hs (h ▸ List.mem_cons_self)
      have hrest := ih fun h => hs (List.mem_cons_of_mem b h)
      simp only [cells, List.map_cons, cstr, if_neg hb] at hrest ⊢
      rw [hrest]
      rfl

/-- Without a NUL the read of a string leaves the block. -/
theorem cstr_cells_outOfBounds {s : Bytes} (hs : 0 ∉ s) :
    cstr (cells s ++ zeros 0) = .error .outOfBounds := by
  rw [zeros, List.replicate_zero, List.append_nil]
  exact cstr_cells_of_notMem hs

/-- A NUL ends a string. -/
theorem exists_cstr_cells {s : Bytes} (hs : 0 ∈ s) : ∃ t, cstr (cells s) = .ok t := by
  induction s with
  | nil => cases hs
  | cons b s ih =>
      simp only [cells, List.map_cons, cstr] at ih ⊢
      by_cases hb : b = 0
      · exact ⟨[], if_pos hb⟩
      · obtain ⟨t, ht⟩ := ih ((List.mem_cons.mp hs).resolve_left (Ne.symm hb))
        exact ⟨b :: t, by rw [if_neg hb, ht]; rfl⟩

/-- A text without a NUL goes on in the string behind it. -/
theorem cstr_cells_append_eq {s : Bytes} (hs : 0 ∉ s) (q : Block) :
    cstr (cells s ++ q) = (cstr q).map (s ++ ·) := by
  induction s with
  | nil =>
      rw [cells_nil, List.nil_append]
      cases cstr q <;> rfl
  | cons b s ih =>
      have hb : b ≠ 0 := fun h => hs (h ▸ List.mem_cons_self)
      have hrest := ih fun h => hs (List.mem_cons_of_mem b h)
      simp only [cells, List.map_cons, List.cons_append, cstr, if_neg hb] at hrest ⊢
      rw [hrest]
      cases cstr q <;> rfl

/-- Of any bytes, a terminated block is a string up to the first NUL. -/
theorem cstr_textBlock_takeWhile (s : Bytes) (n : ℕ) :
    cstr (textBlock s (n + 1)) = .ok (s.takeWhile (· ≠ 0)) := by
  induction s with
  | nil => rfl
  | cons b s ih =>
      by_cases hb : b = 0
      · subst hb
        rfl
      · simp only [textBlock, cells, List.map_cons, List.cons_append, cstr, if_neg hb] at ih ⊢
        rw [ih, List.takeWhile_cons_of_pos (by simpa using hb)]
        rfl

/-- The length of a text in a block, -/
theorem strlen_textBlock {s : Bytes} (hs : 0 ∉ s) {n : ℕ} (hn : n ≠ 0) :
    strlen (textBlock s n) = .ok s.length := by
  unfold strlen
  rw [cstr_textBlock hs hn]
  rfl

/-- Where there is a string at a pointer, it ends in a NUL within the block, and holds none. -/
theorem exists_of_cstr {p : Block} {s : Bytes} (h : cstr p = .ok s) :
    0 ∉ s ∧ ∃ q, p = cells s ++ some 0 :: q := by
  induction p generalizing s with
  | nil => cases h
  | cons c p ih =>
      cases c with
      | none => cases h
      | some b =>
          unfold cstr at h
          split_ifs at h with hb
          · cases h
            exact ⟨by simp, p, by rw [hb]; rfl⟩
          · cases hp : cstr p with
            | error e => rw [hp] at h; cases h
            | ok t =>
                rw [hp] at h
                cases h
                obtain ⟨ht, q, rfl⟩ := ih hp
                exact ⟨List.not_mem_cons_of_ne_of_not_mem (Ne.symm hb) ht, q, rfl⟩

/-- A string holds no NUL. -/
theorem zero_notMem_of_cstr {p : Block} {s : Bytes} (h : cstr p = .ok s) : 0 ∉ s :=
  (exists_of_cstr h).1

/-- The string at a pointer ends within its block. -/
theorem length_lt_of_cstr {p : Block} {s : Bytes} (h : cstr p = .ok s) : s.length < p.length := by
  obtain ⟨-, q, rfl⟩ := exists_of_cstr h
  simp

/-- A store in the middle of a block replaces that part, -/
theorem store_append {a b c src : Block} {off : ℕ} (hoff : off = a.length)
    (hsrc : src.length = b.length) : store (a ++ (b ++ c)) off src = .ok (a ++ (src ++ c)) := by
  subst hoff
  unfold store
  rw [if_pos (by simp only [List.length_append]; omega), List.take_left' rfl,
    ← List.append_assoc a b c, List.drop_left' (by simp only [List.length_append]; omega),
    List.append_assoc]

/-- and one that reaches beyond its end is out of bounds. -/
theorem store_outOfBounds {blk src : Block} {off : ℕ} (h : blk.length < off + src.length) :
    store blk off src = .error .outOfBounds := by
  unfold store
  rw [if_neg (Nat.not_le.mpr h)]

/-- A text goes behind the string in a block where there is room, and the string has an end. -/
theorem append_textBlock {s : Bytes} (hs : 0 ∉ s) (n : ℕ) (t : Bytes) :
    (strlen (textBlock s n) >>= fun i => store (textBlock s n) i (cells t)) =
      if n ≠ 0 ∧ t.length ≤ n then .ok (textBlock (s ++ t) (n - t.length))
      else .error .outOfBounds := by
  by_cases hn : n = 0
  · subst hn
    have hlen : strlen (textBlock s 0) = .error .outOfBounds := by
      rw [strlen, textBlock, cstr_cells_outOfBounds hs]
      rfl
    rw [hlen, if_neg (by simp)]
    rfl
  rw [strlen_textBlock hs hn]
  show store (textBlock s n) s.length (cells t) = _
  by_cases hroom : t.length ≤ n
  · have hsplit : zeros n = zeros t.length ++ zeros (n - t.length) := by
      rw [← zeros_add]
      congr 1
      omega
    rw [if_pos ⟨hn, hroom⟩, textBlock, hsplit, store_append (length_cells s).symm (by simp),
      textBlock, cells_append, List.append_assoc]
  · rw [if_neg (fun h => hroom h.2)]
    exact store_outOfBounds (by simp; omega)

/-- The string in a text block, if it has an end. -/
theorem cstr_textBlock_eq {s : Bytes} (hs : 0 ∉ s) (n : ℕ) :
    cstr (textBlock s n) = if n ≠ 0 then .ok s else .error .outOfBounds := by
  by_cases hn : n = 0
  · subst hn
    exact cstr_cells_outOfBounds hs
  · rw [if_pos hn, cstr_textBlock hs hn]

/-- Text is appended to a string if the block has room for it. -/
theorem append_textBlock_bind {α : Type} {s : Bytes} (hs : 0 ∉ s) (n : ℕ) (t : Bytes)
    (k : Block → Except Fault α) :
    (strlen (textBlock s n) >>= fun i => store (textBlock s n) i (cells t) >>= k) =
      if n ≠ 0 ∧ t.length ≤ n then k (textBlock (s ++ t) (n - t.length))
      else .error .outOfBounds := by
  rw [← bind_assoc, append_textBlock hs]
  split_ifs <;> rfl

/-- What was stored at the beginning of a block is its beginning. -/
theorem exists_of_store_zero {blk src new : Block} (h : store blk 0 src = .ok new) :
    ∃ rest, new = src ++ rest := by
  unfold store at h
  split_ifs at h
  obtain rfl := Except.ok.inj h
  exact ⟨blk.drop (0 + src.length), by simp⟩

/-- Clearing the rest of a block behind `a`. -/
theorem memset_append {a b : Block} {off n : ℕ} (hoff : off = a.length) (hn : n = b.length) :
    memset (a ++ b) off 0 n = .ok (a ++ zeros n) := by
  have := store_append (c := []) hoff (show (List.replicate n (some (0 : UInt8))).length = b.length
    by simpa using hn)
  simpa [memset, zeros] using this

/-- Appending to a text block that has room leaves a text block. -/
theorem strcat_textBlock {d s : Bytes} (hd : 0 ∉ d) {n : ℕ} {src : Block} (hsrc : cstr src = .ok s)
    (hroom : s.length < n) :
    strcat (textBlock d n) src = .ok (textBlock (d ++ s) (n - s.length)) := by
  have hsplit : zeros n = zeros (s.length + 1) ++ zeros (n - s.length - 1) := by
    rw [← zeros_add]
    congr 1
    omega
  have htail : zeros (n - s.length) = some 0 :: zeros (n - s.length - 1) := by
    rw [← zeros_succ]
    congr 1
    omega
  unfold strcat
  rw [cstr_textBlock hd (by omega), hsrc]
  show store (cells d ++ zeros n) d.length (cells s ++ [some 0]) = _
  rw [hsplit, store_append (length_cells d).symm (by simp), textBlock, cells_append, htail]
  simp

/-- Appending beyond the end of the block is a fault. -/
theorem strcat_outOfBounds {d s : Bytes} (hd : 0 ∉ d) {n : ℕ} (hn : n ≠ 0) {src : Block}
    (hsrc : cstr src = .ok s) (hroom : n ≤ s.length) :
    strcat (textBlock d n) src = .error .outOfBounds := by
  unfold strcat
  rw [cstr_textBlock hd hn, hsrc]
  exact store_outOfBounds (by simp; omega)

/-- Copying a beginning of a block into zero bytes. -/
theorem memcpy_calloc {s : Bytes} {rest : Block} {n m : ℕ} (hn : n = s.length) (hm : n ≤ m) :
    memcpy (calloc m) (cells s ++ rest) n = .ok (textBlock s (m - n)) := by
  subst hn
  have hzeros : calloc m = [] ++ (zeros s.length ++ zeros (m - s.length)) := by
    rw [calloc, List.nil_append, ← zeros_add]
    congr 1
    omega
  unfold memcpy
  rw [if_pos (by simp), List.take_left' (length_cells s), hzeros,
    store_append (a := []) (show 0 = List.length [] from rfl) (by simp)]
  rfl

/-- Comparing with as many bytes as both have. -/
theorem strncmpEq_cells {s : Bytes} (hs : 0 ∉ s) {rest : Block} {lit : Bytes} {n : ℕ}
    (hn : n ≤ s.length) :
    strncmpEq (cells s ++ rest) lit n = .ok (s.take n == lit.take n) := by
  induction s generalizing lit n with
  | nil =>
      obtain rfl : n = 0 := by simpa using hn
      simp [strncmpEq]
  | cons a s ih =>
      have ha : a ≠ 0 := fun h => hs (h ▸ List.mem_cons_self)
      cases n with
      | zero => simp [strncmpEq]
      | succ n =>
          cases lit with
          | nil => simp [cells, strncmpEq, ha]
          | cons b lit =>
              have hrec : strncmpEq (cells s ++ rest) lit n = .ok (s.take n == lit.take n) :=
                ih (fun h => hs (List.mem_cons_of_mem a h)) (Nat.le_of_succ_le_succ hn)
              simp only [cells, List.map_cons, List.cons_append, strncmpEq] at hrec ⊢
              by_cases hab : a = b
              · subst hab
                rw [if_pos rfl, hrec]
                simp
              · rw [if_neg hab]
                simp [hab]

/-- Comparing a terminated text with a whole literal. -/
theorem strncmpEq_textBlock {s lit : Bytes} (hlit : 0 ∉ lit) (n : ℕ) :
    strncmpEq (textBlock s (n + 1)) lit lit.length = .ok (decide (lit <+: s)) := by
  induction lit generalizing s with
  | nil => cases s <;> simp [strncmpEq]
  | cons b lit ih =>
      have hb : ¬0 = b := fun h => hlit (h ▸ List.mem_cons_self)
      cases s with
      | nil => simp [textBlock, zeros_succ, strncmpEq, hb]
      | cons a s =>
          have hrec := ih (s := s) fun h => hlit (List.mem_cons_of_mem b h)
          simp only [textBlock, cells, List.map_cons, List.cons_append, List.length_cons,
            strncmpEq] at hrec ⊢
          by_cases hab : a = b
          · subst hab
            rw [if_pos rfl, hrec]
            simp [List.cons_prefix_cons]
          · rw [if_neg hab]
            simp [List.cons_prefix_cons, Ne.symm hab]

/-- Comparing a text that has `k` zero bytes behind it with a terminated one: without a zero byte
the comparison runs out of the block where the text is a beginning of the other. -/
theorem strcmpEq_textBlock {u s : Bytes} (hu : 0 ∉ u) (hs : 0 ∉ s) (k n : ℕ) :
    strcmpEq (textBlock u k) (textBlock s (n + 1)) =
      if k = 0 ∧ u <+: s then .error .outOfBounds else .ok (u == s) := by
  induction u generalizing s with
  | nil =>
      cases k with
      | zero => simp [textBlock, cells, zeros, strcmpEq]
      | succ k =>
          cases s with
          | nil => simp [textBlock, zeros_succ, strcmpEq]
          | cons b s =>
              have hb : ¬0 = b := fun h => hs (h ▸ List.mem_cons_self)
              simp [textBlock, cells, zeros_succ, strcmpEq, hb]
  | cons a u ih =>
      have ha : a ≠ 0 := fun h => hu (h ▸ List.mem_cons_self)
      cases s with
      | nil => simp [textBlock, cells, zeros_succ, strcmpEq, ha]
      | cons b s =>
          have hrec := ih (fun h => hu (List.mem_cons_of_mem a h))
            (fun h => hs (List.mem_cons_of_mem b h))
          simp only [textBlock, cells, List.map_cons, List.cons_append, strcmpEq] at hrec ⊢
          by_cases hab : a = b
          · subst hab
            rw [if_pos rfl, if_neg ha, hrec]
            simp [List.cons_prefix_cons]
          · rw [if_neg hab, if_neg (by simp [List.cons_prefix_cons, hab])]
            simp [hab]

/-- A text without separators is read on as one token. -/
theorem strtokFrom_append {sep : UInt8} {w : Bytes} (hw : sep ∉ w) (tok s : Bytes) :
    strtokFrom sep tok (w ++ s) = strtokFrom sep (tok ++ w) s := by
  induction w generalizing tok with
  | nil => simp
  | cons b w ih =>
      have hb : b ≠ sep := fun h => hw (h ▸ List.mem_cons_self)
      rw [List.cons_append, strtokFrom, if_neg hb, ih fun h => hw (List.mem_cons_of_mem b h)]
      simp

/-- **The tokens of words with separators before them** are the words. -/
theorem strtok_flatMap {sep : UInt8} {ws : List Bytes} (hws : ∀ w ∈ ws, w ≠ [] ∧ sep ∉ w) :
    strtok sep (ws.flatMap (sep :: ·)) = ws := by
  have hsep : ∀ (ws : List Bytes), (∀ w ∈ ws, w ≠ [] ∧ sep ∉ w) → ∀ tok,
      strtokFrom sep tok (ws.flatMap (sep :: ·)) = (if tok = [] then [] else [tok]) ++ ws := by
    intro ws
    induction ws with
    | nil => intro _ tok; simp [strtokFrom]
    | cons w ws ih =>
        intro h tok
        obtain ⟨hne, hw⟩ := h w (by simp)
        have hrest := ih (fun v hv => h v (by simp [hv])) w
        rw [if_neg hne] at hrest
        rw [List.flatMap_cons, List.cons_append, strtokFrom, if_pos rfl, strtokFrom_append hw,
          List.nil_append, hrest]
        split_ifs <;> rfl
  simpa [strtok] using hsep ws hws []

end ME2U
