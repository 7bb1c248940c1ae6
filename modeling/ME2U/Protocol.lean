import ME2U.Found.Terminator

/-!
# The ME2U protocol

What the client and the server share: the sequence that ends every protocol message, and the
requests a client may send. A message travels as its UTF-8 bytes followed by the terminating
sequence (`wire`).

The terminating sequence overlaps itself in its first half: its periods are `\r\n` and itself
(`isPeriod_terminatingSequence`). So a body followed by it contains it once exactly when the body
neither contains it nor ends in `\r\n` (`wellTerminated_wire_iff`).
-/

namespace ME2U

/-- The end of a protocol message: a carriage return and line feed, twice.
Source: `README.md` ME2U Protocol, Notes; `ENDING` in `client.h`; `ending` in `server.py` -/
def terminatingSequence : Str := ['\r', '\n', '\r', '\n']

theorem terminatingSequence_ne_nil : terminatingSequence ≠ [] := by decide

theorem terminatingSequence_ascii : ∀ c ∈ terminatingSequence, IsAscii c := by decide

/-- The message `body` as it is sent. -/
def wire (body : Str) : Bytes := encode (body ++ terminatingSequence)

/-- A message is its text and the terminating sequence. -/
theorem wire_eq (body : Str) : wire body = encode body ++ encode terminatingSequence :=
  encode_append body terminatingSequence

/-! ## Verbs

The first words of the protocol's messages, as `server.py` spells them in place and `client.h`
defines them. -/

namespace Verb

def me2u : Str := ['M', 'E', '2', 'U']
def u2em : Str := ['U', '2', 'E', 'M']
def iam : Str := ['I', 'A', 'M']
def etaken : Str := ['E', 'T', 'A', 'K', 'E', 'N']
def mai : Str := ['M', 'A', 'I']
def motd : Str := ['M', 'O', 'T', 'D']
def listu : Str := ['L', 'I', 'S', 'T', 'U']
def utsil : Str := ['U', 'T', 'S', 'I', 'L']
def toUser : Str := ['T', 'O']
def fromUser : Str := ['F', 'R', 'O', 'M']
def morf : Str := ['M', 'O', 'R', 'F']
def ot : Str := ['O', 'T']
def edne : Str := ['E', 'D', 'N', 'E']
def bye : Str := ['B', 'Y', 'E']
def eyb : Str := ['E', 'Y', 'B']
def uoff : Str := ['U', 'O', 'F', 'F']

end Verb

/-! ## Requests -/

/-- The requests of a client.
Source: `README.md` ME2U Protocol -/
inductive Request
  | me2u
  | iam (name : Str)
  | listu
  | toUser (name msg : Str)
  | morf (name : Str)
  | bye
  deriving DecidableEq

namespace Request

/-- The text of a request, without the terminating sequence. -/
def render : Request → Str
  | me2u => Verb.me2u
  | iam name => Verb.iam ++ ' ' :: name
  | listu => Verb.listu
  | toUser name msg => Verb.toUser ++ ' ' :: (name ++ ' ' :: msg)
  | morf name => Verb.morf ++ ' ' :: name
  | bye => Verb.bye

/-- No argument of the request contains a carriage return. -/
def CRFree : Request → Prop
  | iam name => '\r' ∉ name
  | toUser name msg => '\r' ∉ name ∧ '\r' ∉ msg
  | morf name => '\r' ∉ name
  | _ => True

theorem render_ne_nil (r : Request) : r.render ≠ [] := by
  cases r <;> exact List.cons_ne_nil _ _

/-- There is no CR in a request of texts without one. -/
theorem CRFree.notMem_render {r : Request} (h : r.CRFree) : '\r' ∉ r.render := by
  cases r with
  | me2u | listu | bye => decide
  | iam name | morf name =>
      simp only [CRFree] at h
      simp [render, Verb.iam, Verb.morf, h]
  | toUser name msg =>
      simp only [CRFree] at h
      simp [render, Verb.toUser, h]

end Request

/-! ## The terminating sequence inside texts -/

/-- The terminating sequence repeats itself after `\r\n` and not sooner. -/
theorem isPeriod_terminatingSequence {w : Str} :
    IsPeriod w terminatingSequence ↔ w = ['\r', '\n'] ∨ w = terminatingSequence := by
  constructor
  · rintro ⟨hw, v, y, hv, hy⟩
    have hpre : w ∈ terminatingSequence.inits := (List.mem_inits _ _).mpr ⟨v, hv.symm⟩
    have hpost : v <+: terminatingSequence := ⟨y, hy.symm⟩
    obtain rfl : v = terminatingSequence.drop w.length := by rw [hv]; simp
    revert hw hpost
    have hcheck : ∀ w ∈ terminatingSequence.inits, w ≠ [] →
        terminatingSequence.drop w.length <+: terminatingSequence →
        w = ['\r', '\n'] ∨ w = terminatingSequence := by decide
    exact hcheck w hpre
  · rintro (rfl | rfl)
    · exact ⟨by decide, ['\r', '\n'], ['\r', '\n'], rfl, rfl⟩
    · exact ⟨by decide, [], terminatingSequence, rfl, rfl⟩

/-- The terminating sequence overlaps itself in the same text on both sides. -/
theorem border_terminatingSequence (w v y : Str) (hv : v ≠ []) (hw : terminatingSequence = w ++ v)
    (hy : terminatingSequence = v ++ y) : y = w := by
  by_cases hnil : w = []
  · subst hnil
    have hlen := congrArg List.length (hw.symm.trans hy)
    simp only [List.nil_append, List.length_append] at hlen
    exact List.length_eq_zero_iff.mp (by omega)
  · rcases isPeriod_terminatingSequence.mp ⟨hnil, v, y, hw, hy⟩ with rfl | rfl
    · have htwice : terminatingSequence = ['\r', '\n'] ++ ['\r', '\n'] := rfl
      obtain rfl := List.append_cancel_left (htwice.symm.trans hw)
      exact (List.append_cancel_left (htwice.symm.trans hy)).symm
    · exact absurd (List.self_eq_append_right.mp hw) hv

/-- A text that may stand in front of a terminating sequence: the sequence does not occur in it,
nor does the text end in the half of it that would make it overlap. -/
def Terminable (s : Str) : Prop := ¬terminatingSequence <:+: s ∧ ¬['\r', '\n'] <:+ s

instance (s : Str) : Decidable (Terminable s) := inferInstanceAs (Decidable (_ ∧ _))

/-- A message as sent contains the terminating sequence once, at its end. -/
def WellTerminated (frame : Bytes) : Prop := EndsOnce (encode terminatingSequence) frame

instance (frame : Bytes) : Decidable (WellTerminated frame) :=
  inferInstanceAs (Decidable (EndsOnce _ _))

/-- **When a message is well terminated**: exactly when its body is terminable. -/
theorem wellTerminated_wire_iff {body : Str} : WellTerminated (wire body) ↔ Terminable body := by
  unfold WellTerminated
  rw [wire, endsOnce_encode_iff terminatingSequence_ascii terminatingSequence_ne_nil,
    endsOnce_append_iff terminatingSequence_ne_nil, Terminable]
  apply and_congr_right
  intro hin
  simp only [isPeriod_terminatingSequence, forall_eq_or_imp, forall_eq, and_iff_left_iff_imp]
  exact fun _ h => hin h.isInfix

/-- A text without CR can be terminated. -/
theorem Terminable.of_notMem {s : Str} (h : '\r' ∉ s) : Terminable s :=
  ⟨fun hi => h (hi.subset (by decide)), fun hs => h (hs.subset (by decide))⟩

/-- Around a character of another kind, only the text behind it meets the terminating sequence. -/
theorem terminable_append_cons_iff {a b : Str} {c : Char} (hc : c ∉ terminatingSequence) :
    Terminable (a ++ c :: b) ↔ ¬terminatingSequence <:+: a ∧ Terminable b := by
  have hc' : c ∉ ['\r', '\n'] := fun h => hc (List.mem_append_left ['\r', '\n'] h)
  rw [Terminable, Terminable, isInfix_append_cons_iff hc, isSuffix_append_cons_iff hc', not_or,
    and_assoc]

theorem space_notMem_terminatingSequence : ' ' ∉ terminatingSequence := by decide

/-- A verb without a carriage return, a space and a terminable text. -/
theorem Terminable.append_space_cons {a b : Str} (ha : Terminable a) (hb : Terminable b) :
    Terminable (a ++ ' ' :: b) :=
  (terminable_append_cons_iff space_notMem_terminatingSequence).mpr ⟨ha.1, hb⟩

end ME2U
