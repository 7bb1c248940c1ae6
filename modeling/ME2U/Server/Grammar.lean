import ME2U.Server.Requests

/-!
# The requests the handler takes for requests

`handle_user` decides by prefixes what a string is, and cuts its arguments out at fixed offsets. So
it knows every request of the grammar, and it also takes for an `IAM`, a `TO` or a `MORF` what only
begins like one.

* `dispatch_eq_treatment`: the dispatch is the treatment of the string, carried out.
* `treatment_render`: a request of the grammar is treated as what it is.
* `conforms_iff`: the strings that are treated as the grammar says.
-/

namespace ME2U.Server

/-! ## The grammar -/

/-- A name as the grammar has it: not empty, and without spaces. -/
def IsName (name : Str) : Prop := name ≠ [] ∧ ' ' ∉ name

instance (name : Str) : Decidable (IsName name) := inferInstanceAs (Decidable (_ ∧ _))

/-- The names in the request are names.
Source: `README.md` ME2U Protocol -/
def Grammatical : Request → Prop
  | .iam name | .morf name | .toUser name _ => IsName name
  | .me2u | .listu | .bye => True

/-! ## The treatment of a string -/

/-- How the handler takes a string. -/
inductive Treatment
  /-- As a request, with the parts of the string that are acted on. -/
  | request (q : Request)
  /-- As a `TO` that cannot be unpacked into a name and a message. -/
  | unsplit
  /-- As nothing that it knows. -/
  | unknown
  deriving DecidableEq

/-- The conditions and the slices of the dispatch.
Source: `server.py` `handle_user` (lines 53–81) -/
def treatment (newStr : Str) : Treatment :=
  if newStr = Verb.me2u then .request .me2u
  else if newStr.take 3 = Verb.iam then .request (.iam (newStr.drop 4))
  else if newStr = Verb.listu then .request .listu
  else if newStr.take 2 = Verb.toUser then
    match (newStr.drop 3).dropWhile (· ≠ ' ') with
    | [] => .unsplit
    | _ :: msg => .request (.toUser ((newStr.drop 3).takeWhile (· ≠ ' ')) msg)
  else if newStr.take 4 = Verb.morf then .request (.morf (newStr.drop 5))
  else if newStr = Verb.bye then .request .bye
  else .unknown

section Branches

variable {newStr : Str}

/-- What begins with `IAM` is one, whatever the fourth character. -/
theorem treatment_of_take_iam (h : newStr.take 3 = Verb.iam) :
    treatment newStr = .request (.iam (newStr.drop 4)) := by
  have h₁ : newStr ≠ Verb.me2u := by
    rintro rfl
    exact absurd h (by decide)
  unfold treatment
  rw [if_neg h₁, if_pos h]

/-- A string that begins like a `TO` is cut at its first space, if it has one. -/
theorem treatment_of_take_toUser (h : newStr.take 2 = Verb.toUser) :
    (' ' ∉ newStr.drop 3 ∧ treatment newStr = .unsplit) ∨
      ∃ name msg, newStr.drop 3 = name ++ ' ' :: msg ∧ ' ' ∉ name ∧
        treatment newStr = .request (.toUser name msg) := by
  obtain ⟨h₁, h₂, h₃⟩ := ne_of_take_toUser h
  unfold treatment
  rw [if_neg h₁, if_neg h₂, if_neg h₃, if_pos h]
  rcases splitOnce_cases (newStr.drop 3) with ⟨-, hspace⟩ | ⟨name, msg, hcut, hname, -⟩
  · rw [List.dropWhile_eq_nil_iff.mpr (forall_ne_space hspace)]
    exact .inl ⟨hspace, rfl⟩
  · have htake : (name ++ ' ' :: msg).takeWhile (· ≠ ' ') = name := receiver_append hname msg
    rw [hcut, dropWhile_append_space hname, htake]
    exact .inr ⟨name, msg, rfl, hname, rfl⟩

/-- What begins with `MORF` is one, whatever the fifth character. -/
theorem treatment_of_take_morf (h : newStr.take 4 = Verb.morf) :
    treatment newStr = .request (.morf (newStr.drop 5)) := by
  obtain ⟨h₁, h₂, h₃, h₄⟩ := ne_of_take_morf h
  unfold treatment
  rw [if_neg h₁, if_neg h₂, if_neg h₃, if_neg h₄, if_pos h]

/-- What begins with no verb is unknown. -/
theorem treatment_of_other (h : newStr ≠ Verb.me2u ∧ newStr.take 3 ≠ Verb.iam ∧
    newStr ≠ Verb.listu ∧ newStr.take 2 ≠ Verb.toUser ∧ newStr.take 4 ≠ Verb.morf ∧
    newStr ≠ Verb.bye) : treatment newStr = .unknown := by
  obtain ⟨h₁, h₂, h₃, h₄, h₅, h₆⟩ := h
  unfold treatment
  rw [if_neg h₁, if_neg h₂, if_neg h₃, if_neg h₄, if_neg h₅, if_neg h₆]

/-- **The dispatch** of a string is what its treatment says: the request is handled, or it raises,
or the connection is closed. -/
theorem dispatch_eq_treatment (conn : Conn) (addr : Addr) (newStr : Str) :
    dispatch conn addr newStr =
      match treatment newStr with
      | .request q => dispatch conn addr q.render
      | .unsplit => Eff.stop .valueError
      | .unknown => (do
          close conn
          pure .again) := by
  rcases branch_cases newStr with rfl | hiam | rfl | hto | hmorf | rfl | hother
  · rfl
  · rw [treatment_of_take_iam hiam]
    exact (dispatch_of_take_iam conn addr hiam).trans (dispatch_iam conn addr _).symm
  · rfl
  · rw [dispatch_of_take_toUser conn addr hto]
    rcases treatment_of_take_toUser hto with ⟨hspace, htreat⟩ | ⟨name, msg, hcut, hname, htreat⟩
    · rw [htreat, splitOnce, List.dropWhile_eq_nil_iff.mpr (forall_ne_space hspace)]
      rfl
    · simp only [htreat]
      rw [hcut, dispatch_toUser]
  · rw [treatment_of_take_morf hmorf]
    exact (dispatch_of_take_morf conn addr hmorf).trans (dispatch_morf conn addr _).symm
  · rfl
  · rw [treatment_of_other hother]
    exact dispatch_of_other conn addr hother

end Branches

/-- A request of the grammar is treated as what it is. -/
theorem treatment_render {q : Request} (h : Grammatical q) : treatment q.render = .request q := by
  cases q with
  | me2u | listu | bye => rfl
  | iam name => exact treatment_of_take_iam rfl
  | morf name => exact treatment_of_take_morf rfl
  | toUser name msg =>
      have hto : (Request.toUser name msg).render.take 2 = Verb.toUser := rfl
      have hdrop : (Request.toUser name msg).render.drop 3 = name ++ ' ' :: msg := rfl
      rcases treatment_of_take_toUser hto with ⟨hspace, -⟩ | ⟨name', msg', hcut, hname', htreat⟩
      · rw [hdrop] at hspace
        simp at hspace
      · -- there is one way to cut at the first space
        have hrec := congrArg receiver (hdrop.symm.trans hcut)
        rw [receiver_append h.2, receiver_append hname'] at hrec
        rw [hdrop, hrec] at hcut
        rw [htreat, hrec, (List.cons.inj (List.append_cancel_left hcut)).2]

/-! ## What the grammar lays down -/

/-- The string is a request of the grammar. -/
def InGrammar (r : Str) : Prop := ∃ q, Grammatical q ∧ r = q.render

/-- What the protocol lays down for a string: it is treated as a request exactly where it is that
request of the grammar, and otherwise the connection is closed and nothing else happens.
Source: `README.md` Handling Errors -/
structure Conforms (r : Str) : Prop where
  treated : ∀ q, treatment r = .request q ↔ Grammatical q ∧ r = q.render
  closed : ¬InGrammar r → ∀ (conn : Conn) (addr : Addr) (w : World),
    (dispatch conn addr r).run w = (.ok .again,
      { w with isOpen := Function.update w.isOpen conn false })

/-- The string begins like a request with an argument. -/
def BeginsLikeRequest (r : Str) : Prop :=
  r.take 3 = Verb.iam ∨ r.take 2 = Verb.toUser ∨ r.take 4 = Verb.morf

/-- A string that only begins like a request is treated as one, or raises. -/
theorem not_conforms {r : Str} (hbegins : BeginsLikeRequest r) (hr : ¬InGrammar r) :
    ¬Conforms r := by
  intro h
  have hnot : ∀ q, treatment r ≠ .request q := fun q hq => hr ⟨q, (h.treated q).mp hq⟩
  rcases hbegins with hiam | hto | hmorf
  · exact hnot _ (treatment_of_take_iam hiam)
  · rcases treatment_of_take_toUser hto with ⟨-, htreat⟩ | ⟨_, _, -, -, htreat⟩
    · have hrun := h.closed hr 0 0 ⟨[], fun _ => true, []⟩
      rw [dispatch_eq_treatment, htreat] at hrun
      cases hrun
    · exact hnot _ htreat
  · exact hnot _ (treatment_of_take_morf hmorf)

/-- **The strings that are treated as the grammar says**: the requests of the grammar, and the
strings that do not even begin like an `IAM`, a `TO` or a `MORF`. -/
theorem conforms_iff (r : Str) : Conforms r ↔ InGrammar r ∨ ¬BeginsLikeRequest r := by
  constructor
  · intro h
    by_contra hneither
    rw [not_or, not_not] at hneither
    exact not_conforms hneither.2 hneither.1 h
  · intro h
    by_cases hr : InGrammar r
    · obtain ⟨q, hq, rfl⟩ := hr
      refine ⟨fun q' => ⟨fun htreat => ?_, fun ⟨hq', heq⟩ => ?_⟩,
        fun hnot => absurd ⟨q, hq, rfl⟩ hnot⟩
      · rw [treatment_render hq] at htreat
        obtain rfl := Treatment.request.inj htreat
        exact ⟨hq, rfl⟩
      · rw [heq, treatment_render hq']
    · have hbegins := h.resolve_left hr
      simp only [BeginsLikeRequest, not_or] at hbegins
      have hother : r ≠ Verb.me2u ∧ r.take 3 ≠ Verb.iam ∧ r ≠ Verb.listu ∧ r.take 2 ≠ Verb.toUser ∧
          r.take 4 ≠ Verb.morf ∧ r ≠ Verb.bye :=
        ⟨fun heq => hr ⟨.me2u, trivial, heq⟩, hbegins.1, fun heq => hr ⟨.listu, trivial, heq⟩,
          hbegins.2.1, hbegins.2.2, fun heq => hr ⟨.bye, trivial, heq⟩⟩
      refine ⟨fun q => ⟨fun htreat => ?_, fun hq => absurd ⟨q, hq⟩ hr⟩, fun _ conn addr w => ?_⟩
      · rw [treatment_of_other hother] at htreat
        cases htreat
      · rw [dispatch_of_other conn addr hother]
        rfl

/-- `IAMx` is treated as an `IAM` with an empty name. -/
theorem not_conforms_iamx : ¬Conforms ['I', 'A', 'M', 'x'] := by
  intro h
  have hname : IsName [] := ((h.treated (.iam [])).mp rfl).1
  exact hname.1 rfl

end ME2U.Server
