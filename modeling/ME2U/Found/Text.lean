import Mathlib.Data.List.Infix
import Mathlib.Data.List.Flatten
import Mathlib.Tactic.Common

/-!
# Text and its bytes

Strings are lists of characters, what travels between processes is lists of bytes, and `encode`
and `decode` are strict UTF-8 between the two. Python's `str.encode` and `bytes.decode` are
these, and a C program that never looks past ASCII works on `encode`'s image directly.

* `decode_eq_some_iff`: `decode` succeeds exactly on the images of `encode`, with the preimage.
* `isPrefix_of_encode_isPrefix`: a byte prefix that is an encoding is the encoding of a prefix.
* `encode_eq_append_ascii_append`: an ASCII text occurring in the bytes of `s` occurs in `s`, at
  the corresponding place. An ASCII byte is never a part of a longer character.
-/

namespace ME2U

/-- What holds of every member of a list is decided member by member, and not by going through all
characters or bytes. -/
instance (priority := 2000) decidableForallMem {α : Type} (p : α → Prop)
    [DecidablePred p] (l : List α) :
    Decidable (∀ x ∈ l, p x) := List.decidableBAll p l

/-- A text: a list of Unicode scalar values. -/
abbrev Str := List Char

/-- What is sent and received. -/
abbrev Bytes := List UInt8

/-- UTF-8 encoding. -/
def encode (s : Str) : Bytes := s.flatMap String.utf8EncodeChar

/-- Strict UTF-8 decoding: `none` where the bytes encode no text. -/
def decode (b : Bytes) : Option Str := b.toByteArray.utf8Decode?.map Array.toList

/-- The byte of an ASCII character. -/
def ascii (c : Char) : UInt8 := UInt8.ofNat c.toNat

/-- `c` is encoded in one byte, its own number. -/
def IsAscii (c : Char) : Prop := c.toNat < 128

instance (c : Char) : Decidable (IsAscii c) := inferInstanceAs (Decidable (c.toNat < 128))

/-! ## Encoding, piece by piece -/

@[simp] theorem encode_nil : encode [] = [] := rfl

theorem encode_cons (c : Char) (s : Str) : encode (c :: s) = String.utf8EncodeChar c ++ encode s :=
  rfl

theorem encode_space_cons (s : Str) : encode (' ' :: s) = 32 :: encode s := rfl

@[simp] theorem encode_append (s t : Str) : encode (s ++ t) = encode s ++ encode t := by
  simp [encode]

@[simp] theorem encode_eq_nil {s : Str} : encode s = [] ↔ s = [] := by
  cases s <;> simp [encode_cons]

/-- An ASCII character is one byte. -/
theorem utf8EncodeChar_of_ascii {c : Char} (h : IsAscii c) :
    String.utf8EncodeChar c = [ascii c] := by
  have h' : c.val.toNat ≤ 127 := Nat.le_of_lt_succ h
  simp only [String.utf8EncodeChar, h', if_true]
  rfl

theorem toNat_ascii {c : Char} (h : IsAscii c) : (ascii c).toNat = c.toNat := by
  have h' : c.toNat < 128 := h
  simp only [ascii, UInt8.toNat_ofNat']
  omega

theorem ascii_inj {c d : Char} (hc : IsAscii c) (hd : IsAscii d) (h : ascii c = ascii d) :
    c = d := by
  have := congrArg UInt8.toNat h
  rw [toNat_ascii hc, toNat_ascii hd] at this
  exact Char.toNat_inj.mp this

/-- Every byte of a character beyond ASCII is at least 128. -/
theorem le_of_mem_utf8EncodeChar {c : Char} (h : ¬IsAscii c) {b : UInt8}
    (hb : b ∈ String.utf8EncodeChar c) : 128 ≤ b.toNat := by
  have h' : ¬c.val.toNat ≤ 127 := fun hle => h (Nat.lt_succ_of_le hle)
  simp only [String.utf8EncodeChar, h', if_false] at hb
  split_ifs at hb <;> simp only [List.mem_cons, List.not_mem_nil, or_false] at hb <;>
    rcases hb with rfl | rfl | rfl | rfl <;> simp only [UInt8.toNat_ofNat'] <;> omega

/-- The ASCII bytes of an encoding are the ASCII characters of the text. -/
theorem ascii_mem_encode {c : Char} (hc : IsAscii c) {s : Str} : ascii c ∈ encode s ↔ c ∈ s := by
  induction s with
  | nil => simp
  | cons d s ih =>
      rw [encode_cons, List.mem_append, ih, List.mem_cons]
      apply or_congr_left
      by_cases hd : IsAscii d
      · rw [utf8EncodeChar_of_ascii hd, List.mem_singleton]
        exact ⟨ascii_inj hc hd, fun h => h ▸ rfl⟩
      · constructor
        · intro hmem
          have := le_of_mem_utf8EncodeChar hd hmem
          rw [toNat_ascii hc] at this
          exact absurd hc (Nat.not_lt.mpr this)
        · rintro rfl
          exact absurd hc hd

/-- A NUL is in the bytes where it is in the text. -/
theorem zero_mem_encode {s : Str} : 0 ∈ encode s ↔ '\x00' ∈ s :=
  ascii_mem_encode (show IsAscii '\x00' by decide)

@[inherit_doc zero_mem_encode]
theorem cr_mem_encode {s : Str} : 13 ∈ encode s ↔ '\r' ∈ s :=
  ascii_mem_encode (show IsAscii '\r' by decide)

@[inherit_doc zero_mem_encode]
theorem space_mem_encode {s : Str} : 32 ∈ encode s ↔ ' ' ∈ s :=
  ascii_mem_encode (show IsAscii ' ' by decide)

/-! ## Decoding -/

theorem toByteArray_encode (s : Str) : (encode s).toByteArray = s.utf8Encode := rfl

@[simp] theorem decode_encode (s : Str) : decode (encode s) = some s := by
  simp [decode, toByteArray_encode]

/-- Bytes decode to a text if they are its encoding. -/
theorem decode_eq_some_iff {b : Bytes} {s : Str} : decode b = some s ↔ b = encode s := by
  constructor
  · intro h
    obtain ⟨a, ha, rfl⟩ := Option.map_eq_some_iff.mp h
    have hsome : b.toByteArray.utf8Decode?.isSome := by simp [ha]
    have hget : b.toByteArray.utf8Decode?.get hsome = a := by simp [ha]
    have hb := ByteArray.utf8Encode_get_utf8Decode? (b := b.toByteArray) (h := hsome)
    rw [hget] at hb
    exact (List.toByteArray_inj.mp hb).symm
  · rintro rfl
    exact decode_encode s

/-- Different texts have different encodings. -/
theorem encode_inj {s t : Str} : encode s = encode t ↔ s = t := by
  refine ⟨fun h => ?_, fun h => h ▸ rfl⟩
  have := decode_encode s
  rw [h, decode_encode] at this
  exact (Option.some.inj this).symm

/-- A byte prefix that is itself an encoding is the encoding of a prefix. -/
theorem isPrefix_of_encode_isPrefix {s t : Str} (h : encode s <+: encode t) : s <+: t := by
  obtain ⟨b, hb⟩ := h
  apply List.isPrefix_of_utf8Encode_append_eq_utf8Encode b.toByteArray
  rw [← toByteArray_encode, ← toByteArray_encode, ← List.toByteArray_append, hb]

/-- What is left behind an encoded prefix is the encoding of the rest. -/
theorem exists_of_encode_append_eq {s t : Str} {b : Bytes} (h : encode s ++ b = encode t) :
    ∃ u, t = s ++ u ∧ b = encode u := by
  obtain ⟨u, rfl⟩ := isPrefix_of_encode_isPrefix ⟨b, h⟩
  refine ⟨u, rfl, ?_⟩
  rw [encode_append] at h
  exact List.append_cancel_left h

/-! ## ASCII texts inside an encoding -/

/-- Where an encoding is cut at an ASCII byte, the text is cut at that character. -/
theorem exists_of_encode_eq_append_cons {s : Str} {c : Char} (hc : IsAscii c) {x y : Bytes}
    (h : encode s = x ++ ascii c :: y) :
    ∃ s₁ s₂, s = s₁ ++ c :: s₂ ∧ x = encode s₁ ∧ y = encode s₂ := by
  induction s generalizing x with
  | nil => simp at h
  | cons d s ih =>
      rw [encode_cons] at h
      by_cases hd : IsAscii d
      · rw [utf8EncodeChar_of_ascii hd, List.singleton_append] at h
        cases x with
        | nil =>
            obtain ⟨hdc, hy⟩ := List.cons.inj h
            exact ⟨[], s, by rw [ascii_inj hd hc hdc]; rfl, rfl, hy.symm⟩
        | cons x₀ x =>
            obtain ⟨rfl, hx⟩ := List.cons.inj h
            obtain ⟨s₁, s₂, rfl, rfl, rfl⟩ := ih hx
            exact ⟨d :: s₁, s₂, rfl, by rw [encode_cons, utf8EncodeChar_of_ascii hd]; rfl, rfl⟩
      · -- the ASCII byte lies behind all bytes of `d`
        rcases List.append_eq_append_iff.mp h with ⟨x', rfl, hx'⟩ | ⟨w, hw, hcy⟩
        · obtain ⟨s₁, s₂, rfl, rfl, rfl⟩ := ih hx'
          exact ⟨d :: s₁, s₂, rfl, by rw [encode_cons], rfl⟩
        · cases w with
          | nil =>
              obtain ⟨s₁, s₂, rfl, hs₁, rfl⟩ := ih (x := []) (by simpa using hcy.symm)
              have : s₁ = [] := encode_eq_nil.mp hs₁.symm
              subst this
              exact ⟨[d], s₂, rfl, by simpa [encode_cons] using hw.symm, rfl⟩
          | cons w₀ w =>
              obtain ⟨rfl, -⟩ := List.cons.inj hcy
              have := le_of_mem_utf8EncodeChar (b := ascii c) hd (by rw [hw]; simp)
              rw [toNat_ascii hc] at this
              exact absurd hc (Nat.not_lt.mpr this)

/-- An ASCII text in the bytes of `s` stands at the corresponding place of `s`. -/
theorem encode_eq_append_ascii_append {s t : Str} (ht : ∀ c ∈ t, IsAscii c) (hne : t ≠ [])
    {x y : Bytes} (h : encode s = x ++ encode t ++ y) :
    ∃ s₁ s₂, s = s₁ ++ t ++ s₂ ∧ x = encode s₁ ∧ y = encode s₂ := by
  obtain ⟨c, t, rfl⟩ := List.exists_cons_of_ne_nil hne
  have hc : IsAscii c := ht c (by simp)
  rw [encode_cons, utf8EncodeChar_of_ascii hc] at h
  obtain ⟨s₁, s₂, rfl, rfl, hy⟩ :=
    exists_of_encode_eq_append_cons (y := encode t ++ y) hc (by simpa using h)
  obtain ⟨s₃, rfl, rfl⟩ := exists_of_encode_append_eq hy
  exact ⟨s₁, s₃, by simp, rfl, rfl⟩

/-- An ASCII text ends the bytes of `s` where it ends `s`. -/
theorem isSuffix_encode_iff {t s : Str} (ht : ∀ c ∈ t, IsAscii c) (hne : t ≠ []) :
    encode t <:+ encode s ↔ t <:+ s := by
  constructor
  · rintro ⟨x, hx⟩
    obtain ⟨s₁, s₂, rfl, -, hs₂⟩ :=
      encode_eq_append_ascii_append (y := []) ht hne (by simpa using hx.symm)
    obtain rfl : s₂ = [] := encode_eq_nil.mp hs₂.symm
    rw [List.append_nil]
    exact List.suffix_append s₁ t
  · rintro ⟨x, rfl⟩
    rw [encode_append]
    exact List.suffix_append (encode x) (encode t)

end ME2U
