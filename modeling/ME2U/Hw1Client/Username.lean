import ME2U.Hw1Client.Login

/-!
# The name check of `hw1_client`

The protocol limits names to 10 characters without spaces, and `valid_username` is to check a name
for this. Its loop runs until `*ptr` is NUL, but has no statement that moves `ptr`.

* `validUsernameLoop`: the loop, for as many turns as it is given.
* `verdict`, `validUsername_returns_iff`: which value is returned, and for which strings.
* `validUsername_decidesRule_iff`: the rule is decided exactly where no second turn is needed.
-/

namespace ME2U.Hw1Client

/-! ## Functions -/

/-- The loop, for at most `fuel` turns: `none` where it has not returned after these.
Source: `client.c` `valid_username` (lines 88–93) -/
def validUsernameLoop (ptr : Block) : ℕ → Except Fault (Option Bool)
  | 0 => .ok none
  | fuel + 1 =>
      match ptr with
      | [] => .error .outOfBounds
      | none :: _ => .error .uninitialised
      | some c :: _ =>
          if c = 0 then .ok (some true)
          else if c = 32 ∨ c = 10 then .ok (some false)
          -- The source has no `ptr++`: the next turn looks at the same character.
          else validUsernameLoop ptr fuel

/-- Source: `client.c` `valid_username` (lines 83–94) -/
def validUsername (name : Block) (fuel : ℕ) : Except Fault (Option Bool) := do
  let n ← strlen name
  if 10 < n then .ok (some false) else validUsernameLoop name fuel

/-- The function returns `b`: it does so in as many turns as are enough, and in any greater
number. -/
def Returns (name : Block) (b : Bool) : Prop :=
  ∃ turns, ∀ fuel ≥ turns, validUsername name fuel = .ok (some b)

/-- What the protocol asks of a name. -/
def NameRule (s : Bytes) : Prop := s.length ≤ 10 ∧ 32 ∉ s ∧ 10 ∉ s

/-- The function terminates on the string `s` at `name`, and says whether the rule holds of it. -/
def DecidesRule (name : Block) (s : Bytes) : Prop := ∃ b, Returns name b ∧ (b = true ↔ NameRule s)

/-! ## The loop -/

/-- What the check says of a string, if it returns. -/
def verdict (s : Bytes) : Option Bool :=
  if 10 < s.length then some false
  else if s = [] then some true
  else if s.head? = some 32 ∨ s.head? = some 10 then some false
  else none

/-- One turn on a character that lets the loop go on is like any other. -/
theorem validUsernameLoop_cons {c : UInt8} (h0 : c ≠ 0) (hblank : ¬(c = 32 ∨ c = 10)) (p : Block)
    (fuel : ℕ) : validUsernameLoop (some c :: p) fuel = .ok none := by
  induction fuel with
  | zero => rfl
  | succ fuel ih =>
      rw [validUsernameLoop, if_neg h0, if_neg hblank]
      exact ih

/-- Whatever there is to say is said in the first turn. -/
theorem validUsername_succ {name : Block} {s : Bytes} (h : cstr name = .ok s) (k : ℕ) :
    validUsername name (k + 1) = .ok (verdict s) := by
  have hlen : strlen name = .ok s.length := by rw [strlen, h]; rfl
  unfold validUsername verdict
  rw [hlen, ok_bind]
  by_cases hlong : 10 < s.length
  · rw [if_pos hlong, if_pos hlong]
  rw [if_neg hlong, if_neg hlong]
  obtain ⟨h0, q, rfl⟩ := exists_of_cstr h
  cases s with
  | nil => rfl
  | cons c s =>
      have hc : c ≠ 0 := fun hc => h0 (hc ▸ List.mem_cons_self)
      rw [if_neg (List.cons_ne_nil c s)]
      simp only [List.head?_cons, Option.some.injEq]
      by_cases hblank : c = 32 ∨ c = 10
      · rw [if_pos hblank]
        show validUsernameLoop (some c :: (cells s ++ some 0 :: q)) (k + 1) = _
        rw [validUsernameLoop, if_neg hc, if_pos hblank]
      · rw [if_neg hblank]
        exact validUsernameLoop_cons hc hblank _ (k + 1)

/-- **What is returned** is the verdict on the string, and nothing where there is none. -/
theorem validUsername_returns_iff {name : Block} {s : Bytes} (h : cstr name = .ok s) (b : Bool) :
    Returns name b ↔ verdict s = some b := by
  constructor
  · rintro ⟨turns, hb⟩
    have hone := hb (turns + 1) (Nat.le_succ turns)
    rw [validUsername_succ h] at hone
    exact Except.ok.inj hone
  · intro hv
    refine ⟨1, fun fuel hfuel => ?_⟩
    obtain ⟨k, rfl⟩ := Nat.exists_eq_add_of_le' hfuel
    rw [validUsername_succ h, hv]

/-- There is a verdict on the empty string, on one that is too long and on one that starts with a
space or a newline. -/
theorem exists_verdict_iff (s : Bytes) :
    (∃ b, verdict s = some b) ↔ s = [] ∨ 10 < s.length ∨ s.head? = some 32 ∨ s.head? = some 10 := by
  unfold verdict
  split_ifs with hlong hnil hblank
  · simp [hlong]
  · simp [hnil]
  · simp [hblank]
  · simp [hlong, hnil, hblank]

/-- A verdict is right. -/
theorem verdict_eq_true_iff {s : Bytes} {b : Bool} (h : verdict s = some b) :
    b = true ↔ NameRule s := by
  unfold verdict at h
  split_ifs at h with hlong hnil hblank
  · obtain rfl := Option.some.inj h
    simp only [Bool.false_eq_true, false_iff]
    intro hrule
    exact absurd hlong (Nat.not_lt.mpr hrule.1)
  · obtain rfl := Option.some.inj h
    subst hnil
    exact ⟨fun _ => ⟨by decide, by simp, by simp⟩, fun _ => rfl⟩
  · obtain rfl := Option.some.inj h
    simp only [Bool.false_eq_true, false_iff]
    rintro ⟨-, hspace, hnewline⟩
    rcases hblank with hhead | hhead
    · exact hspace (List.mem_of_mem_head? hhead)
    · exact hnewline (List.mem_of_mem_head? hhead)

/-- **The check decides the rule** for the empty string, for one that is too long and for one that
starts with a space or a newline; on any other it does not return. -/
theorem validUsername_decidesRule_iff {name : Block} {s : Bytes} (h : cstr name = .ok s) :
    DecidesRule name s ↔ s = [] ∨ 10 < s.length ∨ s.head? = some 32 ∨ s.head? = some 10 := by
  rw [← exists_verdict_iff]
  constructor
  · rintro ⟨b, hb, -⟩
    exact ⟨b, (validUsername_returns_iff h b).mp hb⟩
  · rintro ⟨b, hv⟩
    exact ⟨b, (validUsername_returns_iff h b).mpr hv, verdict_eq_true_iff hv⟩

/-- The rule is decided for a name that starts with a space, and not for one that has the space
behind. -/
theorem validUsername_decidesRule_blank : DecidesRule (textBlock [32, 97] 1) [32, 97] ∧
    ¬DecidesRule (textBlock [97, 32] 1) [97, 32] :=
  ⟨(validUsername_decidesRule_iff (by decide)).mpr (by decide),
    (validUsername_decidesRule_iff (by decide)).not.mpr (by decide)⟩

/-- On the name of the protocol's example the check does not terminate. -/
theorem not_validUsername_decidesRule :
    ¬∀ name s, cstr name = .ok s → DecidesRule name s := by
  intro h
  have hneal : cstr (textBlock (encode ['n', 'e', 'a', 'l']) 1) =
    .ok (encode ['n', 'e', 'a', 'l']) := rfl
  obtain ⟨b, hb, -⟩ := h _ _ hneal
  have hverdict := (validUsername_returns_iff hneal b).mp hb
  cases hverdict

end ME2U.Hw1Client
