import ME2U.Server.Requests

/-!
# How the server finds requests in the byte stream

The handler of a connection takes every chunk that `recv` returns for one request: it deletes the
terminating sequences in it and dispatches on what is left. It keeps nothing between chunks. So it
dispatches on the requests that were sent only where the stream happens to be cut accordingly.

* `deleteAll_eq_iff_of_isPrefix`: a beginning of the stream that strips to the first request is
  that request, with or without its terminating sequence.
* `handleUser_dispatches_requests_iff`: the handler dispatches on exactly the requests sent, and
  no chunk fails to decode, iff every request arrives alone in a chunk, with at most a whole
  terminating sequence on either side, and the handler stays in its loop until the last one.
-/

namespace ME2U.Server

/-! ## Cutting the stream -/

/-- The text a client writes for a sequence of requests. -/
def streamText (qs : List Request) : Str := qs.flatMap fun q => q.render ++ terminatingSequence

/-- The stream of the requests, request by request. -/
theorem encode_streamText (qs : List Request) :
    encode (streamText qs) = qs.flatMap fun q => wire q.render := by
  induction qs with
  | nil => rfl
  | cons q qs ih =>
      unfold streamText
      rw [List.flatMap_cons, encode_append, List.flatMap_cons, ← ih]
      rfl

/-- The stream never begins with a carriage return. -/
theorem head_streamText_ne {qs : List Request} (hq : ∀ q ∈ qs, q.CRFree) {c : Char} {s : Str}
    (h : streamText qs = c :: s) : c ≠ '\r' := by
  cases qs with
  | nil => cases h
  | cons q qs =>
      obtain ⟨d, u, hd⟩ := List.exists_cons_of_ne_nil q.render_ne_nil
      have hfree := (hq q (by simp)).notMem_render
      unfold streamText at h
      rw [List.flatMap_cons, hd, List.cons_append, List.cons_append] at h
      rw [← (List.cons.inj h).1]
      rintro rfl
      exact hfree (hd ▸ List.mem_cons_self)

theorem deleteAll_terminatingSequence_append (s : Str) :
    deleteAll terminatingSequence (terminatingSequence ++ s) = deleteAll terminatingSequence s :=
  deleteAll_self_append terminatingSequence_ne_nil s

/-- A beginning of `terminatingSequence ++ r` that strips to nothing. -/
theorem eq_nil_or_eq_of_deleteAll_eq_nil {b r : Str} (hb : b <+: terminatingSequence ++ r)
    (hr : ∀ c s, r = c :: s → c ≠ '\r') (h : deleteAll terminatingSequence b = []) :
    b = [] ∨ b = terminatingSequence := by
  obtain ⟨u, hu⟩ := hb
  rcases List.append_eq_append_iff.mp hu with ⟨a, ha, -⟩ | ⟨d, rfl, hd⟩
  · -- `b` lies inside the terminating sequence
    by_cases hlt : b.length < terminatingSequence.length
    · rw [deleteAll_of_length_lt hlt] at h
      exact .inl h
    · refine .inr ?_
      have hlen := congrArg List.length ha
      rw [List.length_append] at hlen
      have ha0 : a = [] := List.length_eq_zero_iff.mp (by omega)
      simpa [ha0] using ha.symm
  · rw [deleteAll_terminatingSequence_append] at h
    cases d with
    | nil => exact .inr (by simp)
    | cons c d =>
        have hc := hr c (d ++ u) hd
        have hpre : ¬terminatingSequence <+: c :: d := by
          rintro ⟨r, hr⟩
          exact hc (List.cons.inj hr).1.symm
        rw [deleteAll_cons_of_not_isPrefix hpre] at h
        cases h

/-- **The chunks that strip to the first request.** Of the beginnings of the stream, those are the
request itself and the request with its terminating sequence. -/
theorem deleteAll_eq_iff_of_isPrefix {x s r : Str} (hx : '\r' ∉ x)
    (hs : s <+: x ++ (terminatingSequence ++ r)) (hr : ∀ c s, r = c :: s → c ≠ '\r') :
    deleteAll terminatingSequence s = x ↔ s = x ∨ s = x ++ terminatingSequence := by
  constructor
  · intro h
    obtain ⟨u, hu⟩ := hs
    rcases List.append_eq_append_iff.mp hu with ⟨a, rfl, -⟩ | ⟨b, rfl, hb⟩
    · rw [terminatingSequence, deleteAll_of_notMem fun hm => hx (by simp [hm])] at h
      exact .inl h
    · rw [terminatingSequence, deleteAll_append_of_notMem hx] at h
      have hnil : deleteAll terminatingSequence b = [] := by simpa [terminatingSequence] using h
      rcases eq_nil_or_eq_of_deleteAll_eq_nil ⟨u, hb.symm⟩ hr hnil with rfl | rfl
      · exact .inl (by simp)
      · exact .inr rfl
  · rintro (rfl | rfl)
    · exact deleteAll_of_notMem hx
    · rw [terminatingSequence, deleteAll_append_of_notMem hx, ← terminatingSequence]
      have := deleteAll_terminatingSequence_append []
      simp only [List.append_nil, deleteAll_nil] at this
      rw [this, List.append_nil]

/-- The same where the terminating sequence of the request before is still to come. -/
theorem deleteAll_eq_iff_of_owed {x s r : Str} (hx : '\r' ∉ x) (hne : x ≠ [])
    (hs : s <+: terminatingSequence ++ (x ++ (terminatingSequence ++ r)))
    (hr : ∀ c s, r = c :: s → c ≠ '\r') :
    deleteAll terminatingSequence s = x ↔
      s = terminatingSequence ++ x ∨ s = terminatingSequence ++ x ++ terminatingSequence := by
  constructor
  · intro h
    obtain ⟨u, hu⟩ := hs
    rcases List.append_eq_append_iff.mp hu with ⟨a, ha, -⟩ | ⟨d, rfl, hd⟩
    · -- `s` lies inside the owed terminating sequence, so it cannot strip to a request
      exfalso
      by_cases hlt : s.length < terminatingSequence.length
      · rw [deleteAll_of_length_lt hlt] at h
        subst h
        obtain ⟨c, v, rfl⟩ := List.exists_cons_of_ne_nil hne
        have : '\r' = c := (List.cons.inj ha).1
        exact hx (this ▸ List.mem_cons_self)
      · have hlen := congrArg List.length ha
        rw [List.length_append] at hlen
        have ha0 : a = [] := List.length_eq_zero_iff.mp (by omega)
        obtain rfl : terminatingSequence = s := by simpa [ha0] using ha
        exact hne (h.symm.trans (by decide))
    · rw [deleteAll_terminatingSequence_append] at h
      rcases (deleteAll_eq_iff_of_isPrefix hx ⟨u, hd.symm⟩ hr).mp h with rfl | rfl
      · exact .inl rfl
      · exact .inr (by simp)
  · rintro (rfl | rfl)
    · rw [deleteAll_terminatingSequence_append]
      exact (deleteAll_eq_iff_of_isPrefix (r := []) hx ⟨terminatingSequence, by simp⟩
        (by simp)).mpr (.inl rfl)
    · rw [List.append_assoc, deleteAll_terminatingSequence_append]
      exact (deleteAll_eq_iff_of_isPrefix (r := []) hx ⟨[], by simp⟩ (by simp)).mpr (.inr rfl)

/-! ## Requests served in turn -/

/-- The chunk holds the request and nothing else but a whole terminating sequence before or behind
it. -/
def Alone (q : Request) (data : Bytes) : Prop :=
  ∃ pre post, (pre = [] ∨ pre = terminatingSequence) ∧ (post = [] ∨ post = terminatingSequence) ∧
    data = encode (pre ++ q.render ++ post)

/-- Every request arrives alone in a chunk, on a connection that is open, and each of them but
perhaps the last one is serviceable. Chunks that hold nothing of a request are left unread, because
the handler has ended or the connection is closed. -/
def ServedInTurn (conn : Conn) (addr : Addr) : World → List Received → List Request → Prop
  | _, [], qs => qs = []
  | w, r :: _, [] => (r.others w).isOpen conn = false
  | w, r :: rs, q :: qs =>
      (r.others w).isOpen conn = true ∧ Alone q r.data ∧
        (Serviceable addr (r.others w) q →
          ServedInTurn conn addr ((dispatch conn addr q.render).run (r.others w)).2 rs qs) ∧
        (¬Serviceable addr (r.others w) q → qs = [])

/-- A chunk that holds one request alone is dispatched on as that request. -/
theorem Alone.requestString {q : Request} (hq : q.CRFree) {data : Bytes} (h : Alone q data) :
    requestString data = some q.render := by
  obtain ⟨pre, post, hpre, hpost, rfl⟩ := h
  have hx := hq.notMem_render
  rw [requestString_encode]
  congr 1
  have hstrip : deleteAll terminatingSequence (q.render ++ post) = q.render := by
    refine (deleteAll_eq_iff_of_isPrefix (r := []) hx ?_ (by simp)).mpr ?_
    · rcases hpost with rfl | rfl
      · exact ⟨terminatingSequence, by simp⟩
      · exact ⟨[], by simp⟩
    · exact hpost.imp (fun h => by simp [h]) fun h => by simp [h]
  rcases hpre with rfl | rfl
  · simpa [ending] using hstrip
  · rw [ending, List.append_assoc, deleteAll_terminatingSequence_append, hstrip]

/-- What is left of the stream behind a chunk that strips to the first request: the later requests,
after the terminating sequence of the first one if that is still to come. -/
theorem exists_rest_of_requestString {q : Request} {qs : List Request} (hq : q.CRFree)
    (hqs : ∀ p ∈ qs, p.CRFree) {owed : Str} (howed : owed = [] ∨ owed = terminatingSequence)
    {data rest : Bytes} (hstream : data ++ rest = encode (owed ++ streamText (q :: qs)))
    (h : requestString data = some q.render) :
    Alone q data ∧ ∃ owed', (owed' = [] ∨ owed' = terminatingSequence) ∧
      rest = encode (owed' ++ streamText qs) := by
  obtain ⟨s, hdec, hs⟩ := Option.map_eq_some_iff.mp h
  rw [decode_eq_some_iff] at hdec
  subst hdec
  obtain ⟨u, hu, rfl⟩ := exists_of_encode_append_eq hstream
  have htext : s ++ u = owed ++ (q.render ++ (terminatingSequence ++ streamText qs)) := by
    rw [← hu, streamText, List.flatMap_cons]
    simp [streamText]
  have hx := hq.notMem_render
  have hhead : ∀ c v, streamText qs = c :: v → c ≠ '\r' := fun c v hv => head_streamText_ne hqs hv
  rcases howed with rfl | rfl
  · rcases (deleteAll_eq_iff_of_isPrefix hx ⟨u, by simpa using htext⟩ hhead).mp hs with rfl | rfl
    · refine ⟨⟨[], [], .inl rfl, .inl rfl, by simp⟩, terminatingSequence, .inr rfl, ?_⟩
      have hu := List.append_cancel_left (htext.trans (List.nil_append _))
      rw [hu]
    · refine ⟨⟨[], terminatingSequence, .inl rfl, .inr rfl, by simp⟩, [], .inl rfl, ?_⟩
      have hu := List.append_cancel_left (htext.trans (by simp :
        _ = q.render ++ terminatingSequence ++ streamText qs))
      rw [hu, List.nil_append]
  · rcases (deleteAll_eq_iff_of_owed hx q.render_ne_nil ⟨u, htext⟩ hhead).mp hs with rfl | rfl
    · refine ⟨⟨terminatingSequence, [], .inr rfl, .inl rfl, by simp⟩, terminatingSequence,
        .inr rfl, ?_⟩
      have hu := List.append_cancel_left (htext.trans (by simp :
        _ = terminatingSequence ++ q.render ++ (terminatingSequence ++ streamText qs)))
      rw [hu]
    · refine ⟨⟨terminatingSequence, terminatingSequence, .inr rfl, .inr rfl, rfl⟩, [],
        .inl rfl, ?_⟩
      have hu := List.append_cancel_left (htext.trans (by simp :
        _ = terminatingSequence ++ q.render ++ terminatingSequence ++ streamText qs))
      rw [hu, List.nil_append]

/-- The handler dispatches on exactly the requests, and no chunk fails to decode. -/
def DispatchesExactly (run : HandlerRun) (qs : List Request) : Prop :=
  run.dispatched = qs.map Request.render ∧ run.stop ≠ .raised .unicodeDecodeError

section Turn

variable {conn : Conn} {addr : Addr} {w : World} {r : Received} {rs : List Received}
variable (hopen : (r.others w).isOpen conn = true) (hdata : r.data ≠ [])
include hopen hdata

/-- One turn of the loop on a chunk that decodes. -/
theorem handleUser_cons_of_requestString {x : Str} (hx : requestString r.data = some x) :
    handleUser conn addr w (r :: rs) =
      match (dispatch conn addr x).run (r.others w) with
      | (.ok .again, w') =>
          ⟨x :: (handleUser conn addr w' rs).dispatched, (handleUser conn addr w' rs).stop,
            (handleUser conn addr w' rs).world⟩
      | (.ok .leave, w') => ⟨[x], .left, w'⟩
      | (.error e, w') => ⟨[x], .raised e, w'⟩ := by
  rw [handleUser, if_neg (by simp [hopen]), if_neg hdata, handleData, hx]
  rfl

/-- One turn of the loop on a chunk that does not decode. -/
theorem handleUser_cons_of_requestString_none (hx : requestString r.data = none) :
    handleUser conn addr w (r :: rs) = ⟨[], .raised .unicodeDecodeError, r.others w⟩ := by
  unfold handleUser
  rw [if_neg (by simp [hopen]), if_neg hdata, handleData, hx]
  rfl

/-- A chunk that decodes is dispatched on first. -/
theorem exists_dispatched_cons {x : Str} (hx : requestString r.data = some x) :
    ∃ xs, (handleUser conn addr w (r :: rs)).dispatched = x :: xs := by
  rw [handleUser_cons_of_requestString hopen hdata hx]
  split
  · exact ⟨_, rfl⟩
  · exact ⟨[], rfl⟩
  · exact ⟨[], rfl⟩

/-- Where there is no request, a chunk is one too many. -/
theorem not_dispatchesExactly_nil : ¬DispatchesExactly (handleUser conn addr w (r :: rs)) [] := by
  rintro ⟨hdispatched, hstop⟩
  cases hx : requestString r.data with
  | none =>
      rw [handleUser_cons_of_requestString_none hopen hdata hx] at hstop
      exact hstop rfl
  | some x =>
      obtain ⟨xs, hxs⟩ := exists_dispatched_cons hopen hdata hx
      rw [hxs] at hdispatched
      cases hdispatched

/-- A chunk that is not the first request is not dispatched on as that. -/
theorem not_dispatchesExactly_cons {q : Request} {qs : List Request}
    (hx : requestString r.data ≠ some q.render) :
    ¬DispatchesExactly (handleUser conn addr w (r :: rs)) (q :: qs) := by
  rintro ⟨hdispatched, hstop⟩
  cases hx' : requestString r.data with
  | none =>
      rw [handleUser_cons_of_requestString_none hopen hdata hx'] at hstop
      exact hstop rfl
  | some x =>
      obtain ⟨xs, hxs⟩ := exists_dispatched_cons hopen hdata hx'
      rw [hxs] at hdispatched
      obtain rfl : x = q.render := (List.cons.inj hdispatched).1
      exact hx hx'

/-- A chunk that is the first request is; the later ones are up to the rest of the run. -/
theorem dispatchesExactly_cons_iff {q : Request} {qs : List Request}
    (hx : requestString r.data = some q.render) :
    DispatchesExactly (handleUser conn addr w (r :: rs)) (q :: qs) ↔
      (Serviceable addr (r.others w) q → DispatchesExactly
          (handleUser conn addr ((dispatch conn addr q.render).run (r.others w)).2 rs) qs) ∧
        (¬Serviceable addr (r.others w) q → qs = []) := by
  rw [handleUser_cons_of_requestString hopen hdata hx, ← run_dispatch_again_iff conn addr hopen q]
  have hraise := run_dispatch_ne_unicodeDecodeError conn addr q.render (r.others w)
  rcases hrun : (dispatch conn addr q.render).run (r.others w) with ⟨e | ctl, w'⟩
  · have he : e ≠ .unicodeDecodeError := by
      rintro rfl
      exact hraise (by rw [hrun])
    simp [DispatchesExactly, eq_comm, he]
  · cases ctl with
    | again => simp [DispatchesExactly]
    | leave => simp [DispatchesExactly, eq_comm]

end Turn

/-- The loop over a stream that may begin with the terminating sequence of an earlier request. -/
theorem handleUser_iff_of_owed (conn : Conn) (addr : Addr) {qs : List Request}
    (hq : ∀ q ∈ qs, q.CRFree) {rs : List Received} (hrecv : ∀ r ∈ rs, r.data ≠ []) {owed : Str}
    (howed : owed = [] ∨ owed = terminatingSequence)
    (hstream : (rs.map Received.data).flatten = encode (owed ++ streamText qs)) (w : World) :
    DispatchesExactly (handleUser conn addr w rs) qs ↔ ServedInTurn conn addr w rs qs := by
  induction rs generalizing qs owed w with
  | nil => cases qs <;> simp [handleUser, DispatchesExactly, ServedInTurn]
  | cons r rs ih =>
      have hrs : ∀ r ∈ rs, r.data ≠ [] := fun r hr => hrecv r (by simp [hr])
      have hdata : r.data ≠ [] := hrecv r (by simp)
      by_cases hopen : (r.others w).isOpen conn = true
      · cases qs with
        | nil =>
            have hno : ¬DispatchesExactly (handleUser conn addr w (r :: rs)) [] :=
              not_dispatchesExactly_nil hopen hdata
            simp [ServedInTurn, hopen, hno]
        | cons q qs =>
            have hqs : ∀ p ∈ qs, p.CRFree := fun p hp => hq p (by simp [hp])
            by_cases hx : requestString r.data = some q.render
            · -- the chunk is the first request: what is left serves the later ones
              obtain ⟨halone, owed', howed', hrest⟩ :=
                exists_rest_of_requestString (hq q (by simp)) hqs howed (by simpa using hstream) hx
              rw [dispatchesExactly_cons_iff hopen hdata hx, ih hqs hrs howed' hrest]
              simp [ServedInTurn, hopen, halone]
            · have hna : ¬Alone q r.data := fun h => hx (h.requestString (hq q (by simp)))
              have hno : ¬DispatchesExactly (handleUser conn addr w (r :: rs)) (q :: qs) :=
                not_dispatchesExactly_cons hopen hdata hx
              simp [ServedInTurn, hna, hno]
      · have hclosed : (r.others w).isOpen conn = false := by simpa using hopen
        unfold handleUser
        rw [if_pos hclosed]
        cases qs <;> simp [DispatchesExactly, ServedInTurn, hclosed]

/-- **When the requests are dispatched on as they were sent.** Whatever the requests and however
the stream is cut into chunks, the handler dispatches on exactly the requests, and no chunk fails
to decode, iff every request arrives alone in a chunk and is served in turn. -/
theorem handleUser_dispatches_requests_iff (conn : Conn) (addr : Addr) (qs : List Request)
    (hq : ∀ q ∈ qs, q.CRFree) (rs : List Received) (hrecv : ∀ r ∈ rs, r.data ≠ [])
    (hstream : (rs.map Received.data).flatten = qs.flatMap fun q => wire q.render) (w : World) :
    DispatchesExactly (handleUser conn addr w rs) qs ↔ ServedInTurn conn addr w rs qs := by
  rw [← encode_streamText] at hstream
  exact handleUser_iff_of_owed conn addr hq hrecv (.inl rfl) hstream w

/-- Three requests are dispatched on, with the stream cut behind the first body and behind the
second request. -/
theorem handleUser_dispatches_three :
    DispatchesExactly
      (handleUser 0 0 ⟨[], fun _ => true, []⟩
        [⟨id, encode Verb.me2u⟩,
          ⟨id, encode (terminatingSequence ++ ending (Request.iam ['a']).render)⟩,
          ⟨id, wire (Request.toUser ['a'] ['h', 'i']).render⟩])
      [.me2u, .iam ['a'], .toUser ['a'] ['h', 'i']] := by
  refine (handleUser_dispatches_requests_iff 0 0 [.me2u, .iam ['a'],
    .toUser ['a'] ['h', 'i']] ?_ _ ?_ ?_ _).mpr ?_
  · simp [Request.CRFree]
  · decide
  · decide
  refine ⟨rfl, ⟨[], [], .inl rfl, .inl rfl, rfl⟩, fun _ => ?_, fun hno => absurd trivial hno⟩
  have hboth : Alone (.iam ['a'])
      (encode (terminatingSequence ++ ending (Request.iam ['a']).render)) :=
    ⟨terminatingSequence, terminatingSequence, .inr rfl, .inr rfl, rfl⟩
  refine ⟨rfl, hboth, fun _ => ?_, fun hno => absurd rfl hno⟩
  exact ⟨rfl, ⟨[], terminatingSequence, .inl rfl, .inr rfl, rfl⟩, fun _ => rfl, fun _ => rfl⟩

/-- A request cut in its middle is not: its two halves are dispatched on. -/
theorem not_handleUser_dispatches_split_request :
    ¬∀ (qs : List Request) (rs : List Received) (w : World), (∀ q ∈ qs, q.CRFree) →
      (∀ r ∈ rs, r.data ≠ []) → (∀ c, w.isOpen c = true) →
      (rs.map Received.data).flatten = (qs.flatMap fun q => wire q.render) →
      DispatchesExactly (handleUser 0 0 w rs) qs := by
  intro hall
  have hrun :=
    hall [.me2u] [⟨id, encode ['M', 'E']⟩, ⟨id, encode ('2' :: 'U' :: terminatingSequence)⟩]
    ⟨[], fun _ => true, []⟩ (by simp [Request.CRFree]) (by decide) (fun _ => rfl) (by decide)
  have hfirst : requestString (encode ['M', 'E']) = some ['M', 'E'] := requestString_encode _
  unfold DispatchesExactly at hrun
  rw [handleUser_cons_of_requestString rfl (by decide) hfirst] at hrun
  have hhead : ['M', 'E'] = Request.me2u.render := by
    have h := hrun.1
    split at h <;> exact (List.cons.inj h).1
  exact absurd hhead (by decide)

end ME2U.Server
