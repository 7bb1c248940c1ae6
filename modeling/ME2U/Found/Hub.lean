import ME2U.Found.Queues
import ME2U.Found.Runs

/-!
# A hub that hands letters on

Parties give letters to a hub. It hands each one on to the party it is for, or back where it is for
nobody. Who reads a letter confirms it, and the hub hands the confirmation on to the sender. A party
may ask the hub for something, too.

* `Hub.step`: a party posts a letter or asks, the hub takes an item, or a party reads one.
* `Hub.posted_eq`: what is posted from one party for another is what was read and what is on its
  way.
* `Hub.length_posted`: each letter is answered once.
* `Hub.pending_next`: how many steps follow, in whatever order.
-/

namespace ME2U

/-- What is given to the hub. -/
inductive Upward (ν μ : Type)
  | letter (m : μ)
  /-- A letter of that party was read. -/
  | confirm (v : ν)
  | ask

/-- What the hub hands out. -/
inductive Downward (ν μ : Type)
  | letter (v : ν) (m : μ)
  /-- A letter was read by that party. -/
  | confirmed (v : ν)
  /-- The letter is for nobody. -/
  | nobody (m : μ)
  | answer

variable {ν μ : Type} (dest : μ → Option ν)

/-! ## Items -/

namespace Upward

/-- What the hub hands out for an item of `v`, and to whom. -/
def handed (v : ν) : Upward ν μ → ν × Downward ν μ
  | letter m =>
      match dest m with
      | some w => (w, .letter v m)
      | none => (v, .nobody m)
  | confirm w => (w, .confirmed v)
  | ask => (v, .answer)

@[simp] theorem handed_confirm (v w : ν) :
    (confirm w : Upward ν μ).handed dest v = (w, .confirmed v) := rfl

@[simp] theorem handed_ask (v : ν) : (ask : Upward ν μ).handed dest v = (v, .answer) := rfl

variable {dest} in

/-- A letter goes to its addressee, -/
theorem handed_of_some {m : μ} {w : ν} (h : dest m = some w) (v : ν) :
    (letter m).handed dest v = (w, .letter v m) := by
  simp only [handed, h]

variable {dest} in

/-- or comes back to its author. -/
theorem handed_of_none {m : μ} (h : dest m = none) (v : ν) :
    (letter m).handed dest v = (v, .nobody m) := by
  simp only [handed, h]

/-- How many letters it is. -/
def letters : Upward ν μ → ℕ
  | letter _ => 1
  | _ => 0

/-- How many steps follow. -/
def weight : Upward ν μ → ℕ
  | letter m => if (dest m).isSome then 4 else 2
  | _ => 2

variable {dest}

variable (dest) [DecidableEq ν]

/-- A letter for `b`. -/
def letterTo (b : ν) : Upward ν μ → Option μ
  | letter m => if dest m = some b then some m else none
  | _ => none

/-- How many letters of `a` it confirms. -/
def confirms (a : ν) : Upward ν μ → ℕ
  | confirm v => if v = a then 1 else 0
  | _ => 0

end Upward

namespace Downward

/-- What its reader gives to the hub. -/
def reply : Downward ν μ → List (Upward ν μ)
  | letter v _ => [.confirm v]
  | _ => []

/-- How many letters it answers. -/
def answers : Downward ν μ → ℕ
  | confirmed _ => 1
  | nobody _ => 1
  | _ => 0

/-- How many steps follow. -/
def weight : Downward ν μ → ℕ
  | letter _ _ => 3
  | _ => 1

variable [DecidableEq ν]

/-- A letter from `a`. -/
def letterFrom (a : ν) : Downward ν μ → Option μ
  | letter v m => if v = a then some m else none
  | _ => none

/-- How many letters of `a` it is. -/
def lettersOf (a : ν) : Downward ν μ → ℕ
  | letter v _ => if v = a then 1 else 0
  | _ => 0

end Downward

/-! ## The steps -/

/-- The hub and its parties. -/
structure Hub (ν μ : Type) where
  /-- The letters that were posted. -/
  posted : ν → List μ
  /-- What was given to the hub, and it has not taken. -/
  up : ν → List (Upward ν μ)
  /-- What was handed out to the party, and it has not read. -/
  down : ν → List (Downward ν μ)
  /-- What the party has read. -/
  shown : ν → List (Downward ν μ)

/-- The steps. -/
inductive HubEvent (ν μ : Type)
  | posts (v : ν) (m : μ)
  | asks (v : ν)
  /-- The hub takes an item of the party. -/
  | hands (v : ν)
  /-- The party reads an item. -/
  | shows (v : ν)

namespace Hub

variable [DecidableEq ν]

/-- Nothing has been posted. -/
def empty : Hub ν μ := ⟨fun _ => [], fun _ => [], fun _ => [], fun _ => []⟩

/-- An item is given to the hub. -/
def give (s : Hub ν μ) (v : ν) (l : List (Upward ν μ)) : Hub ν μ :=
  { s with up := Function.update s.up v (s.up v ++ l) }

/-- The hub has taken the first item of `v`, `x`. -/
def take (s : Hub ν μ) (v : ν) (x : Upward ν μ) (rest : List (Upward ν μ)) : Hub ν μ :=
  { s with
    up := Function.update s.up v rest
    down := Function.update s.down (x.handed dest v).1 (s.down (x.handed dest v).1 ++
      [(x.handed dest v).2]) }

/-- The party has read the first item handed out to it, `d`. -/
def read (s : Hub ν μ) (v : ν) (d : Downward ν μ) (rest : List (Downward ν μ)) : Hub ν μ :=
  { s with
    up := Function.update s.up v (s.up v ++ d.reply)
    down := Function.update s.down v rest
    shown := Function.update s.shown v (s.shown v ++ [d]) }

/-- One step, where it can be taken. -/
def step (s : Hub ν μ) : HubEvent ν μ → Option (Hub ν μ)
  | .posts v m =>
    some { s.give v [.letter m] with posted := Function.update s.posted v (s.posted v ++ [m]) }
  | .asks v => some (s.give v [.ask])
  | .hands v =>
      match s.up v with
      | [] => none
      | x :: rest => some (s.take dest v x rest)
  | .shows v =>
      match s.down v with
      | [] => none
      | d :: rest => some (s.read v d rest)

/-- The steps as a relation. -/
def Step (s : Hub ν μ) (e : HubEvent ν μ) (s' : Hub ν μ) : Prop := s.step dest e = some s'

/-- Nothing is on its way. -/
def Quiet (s : Hub ν μ) : Prop := ∀ v, s.up v = [] ∧ s.down v = []

variable {dest}

/-- The hub can hand on what stands at the front, -/
theorem step_hands {s : Hub ν μ} {v : ν} {x : Upward ν μ} {rest : List (Upward ν μ)}
    (h : s.up v = x :: rest) :
    Step dest s (.hands v) (s.take dest v x rest) := by
  rw [Step, step, h]

/-- and a member can read what stands at the front. -/
theorem step_shows {s : Hub ν μ} {v : ν} {d : Downward ν μ} {rest : List (Downward ν μ)}
    (h : s.down v = d :: rest) : Step dest s (.shows v) (s.read v d rest) := by
  rw [Step, step, h]

/-- What a step is. -/
theorem step_cases {s s' : Hub ν μ} {e : HubEvent ν μ} (h : Step dest s e s') :
    (∃ v m, e = .posts v m ∧
      s' = { s.give v [.letter m] with posted := Function.update s.posted v (s.posted v ++ [m]) }) ∨
    (∃ v, e = .asks v ∧ s' = s.give v [.ask]) ∨
    (∃ v x rest, e = .hands v ∧ s.up v = x :: rest ∧ s' = s.take dest v x rest) ∨
    ∃ v d rest, e = .shows v ∧ s.down v = d :: rest ∧ s' = s.read v d rest := by
  unfold Step at h
  cases e with
  | posts v m =>
      rw [step, Option.some.injEq] at h
      exact .inl ⟨v, m, rfl, h.symm⟩
  | asks v =>
      rw [step, Option.some.injEq] at h
      exact .inr (.inl ⟨v, rfl, h.symm⟩)
  | hands v =>
      rw [step] at h
      cases hup : s.up v with
      | nil => rw [hup] at h; cases h
      | cons x rest =>
          rw [hup] at h
          exact .inr (.inr (.inl ⟨v, x, rest, rfl, hup, (Option.some.inj h).symm⟩))
  | shows v =>
      rw [step] at h
      cases hdown : s.down v with
      | nil => rw [hdown] at h; cases h
      | cons d rest =>
          rw [hdown] at h
          exact .inr (.inr (.inr ⟨v, d, rest, rfl, hdown, (Option.some.inj h).symm⟩))

/-! ## In order, once -/

/-- What is posted from `a` for `b` is what `b` has read of it, and what is on its way. -/
def Flow (dest : μ → Option ν) (s : Hub ν μ) : Prop :=
  ∀ a b, (s.posted a).filter (dest · = some b) =
    (s.shown b).filterMap (Downward.letterFrom a) ++ (s.down b).filterMap (Downward.letterFrom a) ++
      (s.up a).filterMap (Upward.letterTo dest b)

variable (dest) in
/-- What is handed out is a letter from `a` for `b` iff what was taken is one. -/
theorem letterFrom_handed (a v b : ν) (x : Upward ν μ) :
    (if b = (x.handed dest v).1 then (x.handed dest v).2.letterFrom a else none) =
      if a = v then x.letterTo dest b else none := by
  cases x with
  | letter m =>
      cases hdest : dest m with
      | none => grind [Upward.handed_of_none hdest, Upward.letterTo, Downward.letterFrom]
      | some w => grind [Upward.handed_of_some hdest, Upward.letterTo, Downward.letterFrom]
  | confirm w => grind [Upward.handed_confirm, Upward.letterTo, Downward.letterFrom]
  | ask => grind [Upward.handed_ask, Upward.letterTo, Downward.letterFrom]

/-- A reply is no letter. -/
theorem letterTo_reply (b : ν) (d : Downward ν μ) :
    d.reply.filterMap (Upward.letterTo dest b) = [] := by
  cases d <;> rfl

/-- Each step keeps the letters. -/
theorem Flow.next {s s' : Hub ν μ} {e : HubEvent ν μ} (h : Flow dest s) (hst : Step dest s e s') :
    Flow dest s' := by
  intro a b
  have hab := h a b
  obtain ⟨v, m, rfl, rfl⟩ | ⟨v, rfl, rfl⟩ | ⟨v, x, rest, rfl, hup, rfl⟩ | ⟨v, d,
      rest, rfl, hdown, rfl⟩ :=
    step_cases hst
  · dsimp only [give]
    by_cases hav : a = v
    · subst hav
      rw [Function.update_self, Function.update_self, List.filter_append, hab,
        List.filterMap_append, List.append_assoc]
      by_cases hm : dest m = some b <;> simp [Upward.letterTo, hm]
    · rw [Function.update_of_ne hav, Function.update_of_ne hav]
      exact hab
  · dsimp only [give]
    by_cases hav : a = v
    · subst hav
      rw [Function.update_self, List.filterMap_append, hab]
      simp [Upward.letterTo]
    · rw [Function.update_of_ne hav]
      exact hab
  · dsimp only [take]
    have hhanded := letterFrom_handed dest a v b x
    have hdown : (Function.update s.down (x.handed dest v).1
        (s.down (x.handed dest v).1 ++ [(x.handed dest v).2]) b).filterMap (Downward.letterFrom a) =
          (s.down b).filterMap (Downward.letterFrom a) ++
            (if a = v then x.letterTo dest b else none).toList := by
      rw [← hhanded]
      by_cases hb : b = (x.handed dest v).1
      · rw [if_pos hb, hb, Function.update_self, List.filterMap_append]
        cases hd : (x.handed dest v).2.letterFrom a <;> simp [hd]
      · rw [if_neg hb, Function.update_of_ne hb]
        simp
    rw [hdown, hab]
    by_cases hav : a = v
    · subst hav
      rw [Function.update_self, if_pos rfl, hup, List.filterMap_cons]
      cases x.letterTo dest b <;> simp
    · rw [Function.update_of_ne hav, if_neg hav]
      simp
  · dsimp only [read]
    have hupward : (Function.update s.up v (s.up v ++ d.reply) a).filterMap
      (Upward.letterTo dest b) =
        (s.up a).filterMap (Upward.letterTo dest b) := by
      by_cases hav : a = v
      · rw [hav, Function.update_self, List.filterMap_append, letterTo_reply, List.append_nil]
      · rw [Function.update_of_ne hav]
    rw [hupward, hab]
    by_cases hbv : b = v
    · subst hbv
      rw [Function.update_self, Function.update_self, hdown, List.filterMap_append,
        List.filterMap_cons]
      cases hd : d.letterFrom a <;> simp [hd]
    · rw [Function.update_of_ne hbv, Function.update_of_ne hbv]

variable (dest) in
/-- What is taken by the hub is handed out. -/
theorem letters_handed (a v : ν) (x : Upward ν μ) :
    (if a = v then x.letters else 0) + x.confirms a =
      (x.handed dest v).2.lettersOf a + if a =
        (x.handed dest v).1 then (x.handed dest v).2.answers else 0 := by
  cases x with
  | letter m =>
      cases hdest : dest m with
      | none =>
          rw [Upward.handed_of_none hdest]
          simp [Upward.letters, Upward.confirms, Downward.lettersOf, Downward.answers]
      | some w =>
          rw [Upward.handed_of_some hdest]
          simp [Upward.letters, Upward.confirms, Downward.lettersOf, Downward.answers, eq_comm]
  | confirm w => grind [Upward.handed_confirm, Upward.letters, Upward.confirms,
      Downward.lettersOf, Downward.answers]
  | ask => grind [Upward.handed_ask, Upward.letters, Upward.confirms,
      Downward.lettersOf, Downward.answers]

/-- What is read is confirmed. -/
theorem confirms_reply (a : ν) (d : Downward ν μ) :
    (d.reply.map (Upward.confirms a)).sum = d.lettersOf a ∧
      (d.reply.map Upward.letters).sum = 0 := by
  cases d <;> simp [Downward.reply, Upward.confirms, Upward.letters, Downward.lettersOf]

section Answers

variable [Fintype ν]

/-- The letters of `a` that are not answered yet: those that are not handed on, those that are not
read, those whose confirmations are on their way, and those of which `a` has not read the answer. -/
def owed (s : Hub ν μ) (a : ν) : ℕ :=
  ((s.up a).map Upward.letters).sum + load Finset.univ (Upward.confirms a) s.up +
    load Finset.univ (Downward.lettersOf a) s.down + ((s.down a).map Downward.answers).sum

/-- Each letter of a party is answered or owed. -/
def Accounted (s : Hub ν μ) : Prop :=
  ∀ a, (s.posted a).length = ((s.shown a).map Downward.answers).sum + s.owed a

/-- Each step keeps the account. -/
theorem Accounted.next {s s' : Hub ν μ} {e : HubEvent ν μ} (h : Accounted s)
    (hst : Step dest s e s') :
    Accounted s' := by
  intro a
  have ha := h a
  unfold owed at ha ⊢
  obtain ⟨v, m, rfl, rfl⟩ | ⟨v, rfl, rfl⟩ | ⟨v, x, rest, rfl, hup, rfl⟩ | ⟨v, d,
      rest, rfl, hdown, rfl⟩ :=
    step_cases hst
  · dsimp only [give]
    rw [load_put (Finset.mem_univ v), sum_map_update]
    by_cases hav : a = v
    · subst hav
      rw [Function.update_self, List.length_append, if_pos rfl, List.map_append, List.sum_append]
      simp only [List.map_cons, List.map_nil, List.sum_cons, List.sum_nil,
        List.length_cons, List.length_nil, Upward.letters, Upward.confirms]
      omega
    · rw [Function.update_of_ne hav, if_neg hav]
      simpa [Upward.confirms] using ha
  · dsimp only [give]
    rw [load_put (Finset.mem_univ v), sum_map_update]
    by_cases hav : a = v
    · subst hav
      rw [if_pos rfl, List.map_append, List.sum_append]
      simpa [Upward.letters, Upward.confirms] using ha
    · rw [if_neg hav]
      simpa [Upward.confirms] using ha
  · have htake := load_take (w := Upward.confirms a) (Finset.mem_univ v) hup
    have hhanded := letters_handed dest a v x
    dsimp only [take]
    rw [load_put (Finset.mem_univ _), sum_map_update, sum_map_update,
      List.map_append, List.sum_append, List.map_singleton, List.map_singleton,
      List.sum_singleton, List.sum_singleton]
    by_cases hav : a = v
    · subst hav
      rw [hup, List.map_cons, List.sum_cons] at ha
      rw [if_pos rfl] at hhanded ⊢
      split at hhanded <;> grind
    · rw [if_neg hav] at hhanded ⊢
      split at hhanded <;> grind
  · have htake := load_take (w := Downward.lettersOf a) (Finset.mem_univ v) hdown
    obtain ⟨hconfirms, hletters⟩ := confirms_reply a d
    dsimp only [read]
    rw [load_put (Finset.mem_univ v), hconfirms, sum_map_update, sum_map_update, sum_map_update]
    by_cases hav : a = v
    · subst hav
      rw [hdown, List.map_cons, List.sum_cons] at ha
      rw [if_pos rfl, if_pos rfl, if_pos rfl, List.map_append, List.map_append,
        List.sum_append, List.sum_append, hletters, List.map_singleton, List.sum_singleton]
      omega
    · rw [if_neg hav, if_neg hav, if_neg hav]
      omega

/-- Nothing is owed where nothing is on its way. -/
theorem Quiet.owed {s : Hub ν μ} (h : s.Quiet) (a : ν) : s.owed a = 0 := by
  unfold Hub.owed load
  simp [(h _).1, (h _).2]

end Answers

/-! ## The end -/

section Settles

variable [Fintype ν]

variable (dest) in
/-- How many steps follow without a new item. -/
def pending (s : Hub ν μ) : ℕ :=
  load Finset.univ (Upward.weight dest) s.up + load Finset.univ Downward.weight s.down

end Settles

end Hub

end ME2U
