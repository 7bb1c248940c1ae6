import Mathlib.Data.List.Flatten
import Mathlib.Data.List.ReduceOption
import Mathlib.Data.List.Forall2
import ME2U.Found.Terminator

/-!
# A receiver that looks at the end of what it has

Bytes arrive in reads. The receiver appends each read to its pending text and looks at the end of
that text only: if it is the terminator, the text before it is returned and the pending text is
empty again.

* `receiveAll_conserves`: nothing is lost, duplicated or reordered. What is returned, each piece
  with its terminator, followed by what is pending, is what was read.
* `receiveAll_eq_iff`: for frames that end once in the terminator, the frames come out as they
  were sent exactly when every frame ends where a read ends (`Aligned`).
* `pendings` lists the texts the receiver looks at; `forall_pendings_append_iff` reads a condition
  on them off the reads of each frame.
-/

namespace ME2U

variable {α : Type} [DecidableEq α]

/-- One read `b` with `p` pending: what is returned, and what is pending afterwards. -/
def receive (t p b : List α) : Option (List α) × List α :=
  if t <:+ p ++ b then (some ((p ++ b).take ((p ++ b).length - t.length)), []) else (none, p ++ b)

/-- A sequence of reads: everything returned, in order, and what is pending at the end. -/
def receiveAll (t : List α) : List α → List (List α) → List (List α) × List α
  | p, [] => ([], p)
  | p, b :: bs =>
      ((receive t p b).1.toList ++ (receiveAll t (receive t p b).2 bs).1,
        (receiveAll t (receive t p b).2 bs).2)

/-- What each read returns. -/
def outcomes (t : List α) : List α → List (List α) → List (Option (List α))
  | _, [] => []
  | p, b :: bs => (receive t p b).1 :: outcomes t (receive t p b).2 bs

/-- The texts the receiver looks at: the pending text after each append. -/
def pendings (t : List α) : List α → List (List α) → List (List α)
  | _, [] => []
  | p, b :: bs => (p ++ b) :: pendings t (receive t p b).2 bs

/-- The texts that build up when the reads are only appended. -/
def partials : List α → List (List α) → List (List α)
  | _, [] => []
  | p, b :: bs => (p ++ b) :: partials (p ++ b) bs

/-- The reads fall into groups, one for each frame: every frame ends where a read ends. -/
inductive Aligned (t : List α) : List (List α) → List (List α) → Prop
  | nil : Aligned t [] []
  | frame {body bodies group reads} : group.flatten = body ++ t → Aligned t bodies reads →
      Aligned t (body :: bodies) (group ++ reads)

/-! ## One read -/

/-- The text is complete, -/
theorem receive_of_isSuffix {t p b : List α} {body : List α} (h : p ++ b = body ++ t) :
    receive t p b = (some body, []) := by
  have hs : t <:+ p ++ b := ⟨body, h.symm⟩
  unfold receive
  rw [if_pos hs, h]
  simp

/-- or is kept for the next read. -/
theorem receive_of_not_isSuffix {t p b : List α} (h : ¬t <:+ p ++ b) :
    receive t p b = (none, p ++ b) := by
  unfold receive
  rw [if_neg h]

/-- One read loses nothing. -/
theorem receive_conserves (t p b : List α) :
    (receive t p b).1.toList.flatMap (· ++ t) ++ (receive t p b).2 = p ++ b := by
  by_cases h : t <:+ p ++ b
  · obtain ⟨body, hb⟩ := h
    rw [receive_of_isSuffix hb.symm]
    simpa using hb
  · rw [receive_of_not_isSuffix h]
    rfl

/-! ## Conservation over a run -/

/-- **Conservation**: the returned texts, each with its terminator, and then the pending text are
what was pending at the start followed by what was read. -/
theorem receiveAll_conserves (t p : List α) (reads : List (List α)) :
    (receiveAll t p reads).1.flatMap (· ++ t) ++ (receiveAll t p reads).2 = p ++ reads.flatten := by
  induction reads generalizing p with
  | nil => simp [receiveAll]
  | cons b bs ih =>
      have hone := receive_conserves t p b
      simp only [receiveAll, List.flatMap_append, List.append_assoc, List.flatten_cons]
      rw [ih, ← List.append_assoc, hone, List.append_assoc]

/-- Reads are received one after the other. -/
theorem receiveAll_append (t p : List α) (xs ys : List (List α)) :
    receiveAll t p (xs ++ ys) =
      ((receiveAll t p xs).1 ++ (receiveAll t (receiveAll t p xs).2 ys).1,
        (receiveAll t (receiveAll t p xs).2 ys).2) := by
  induction xs generalizing p with
  | nil => rfl
  | cons x xs ih => simp [receiveAll, ih]

/-- The same for what was pending before each, -/
theorem pendings_append (t p : List α) (xs ys : List (List α)) :
    pendings t p (xs ++ ys) = pendings t p xs ++ pendings t (receiveAll t p xs).2 ys := by
  induction xs generalizing p with
  | nil => rfl
  | cons x xs ih => simp [pendings, receiveAll, ih]

omit [DecidableEq α] in
/-- and for the texts before each. -/
theorem partials_append (p : List α) (xs ys : List (List α)) :
    partials p (xs ++ ys) = partials p xs ++ partials (p ++ xs.flatten) ys := by
  induction xs generalizing p with
  | nil => simp [partials]
  | cons x xs ih => simp [partials, ih]

/-- The texts received are those of the outcomes. -/
theorem reduceOption_outcomes (t p : List α) (reads : List (List α)) :
    (outcomes t p reads).reduceOption = (receiveAll t p reads).1 := by
  induction reads generalizing p with
  | nil => rfl
  | cons b bs ih =>
      unfold outcomes
      rw [receiveAll]
      cases (receive t p b).1 <;> simp [ih]

/-- What is pending at the end was looked at, unless it is empty. -/
theorem receiveAll_snd_mem_pendings {t p : List α} {reads : List (List α)} (hne : reads ≠ []) :
    (receiveAll t p reads).2 = [] ∨ (receiveAll t p reads).2 ∈ pendings t p reads := by
  induction reads generalizing p with
  | nil => exact absurd rfl hne
  | cons b bs ih =>
      cases bs with
      | nil =>
          by_cases hs : t <:+ p ++ b
          · obtain ⟨body, hb⟩ := hs
            exact .inl (by simp [receiveAll, receive_of_isSuffix hb.symm])
          · exact .inr (by simp [receiveAll, receive_of_not_isSuffix hs, pendings])
      | cons c cs =>
          apply (ih (p := (receive t p b).2) (by simp)).imp_right
          intro hmem
          exact List.mem_cons_of_mem _ hmem

/-- Every text looked at ends in a read. -/
theorem exists_of_mem_pendings {t p q : List α} {reads : List (List α)}
    (hq : q ∈ pendings t p reads) :
    ∃ p', ∃ b ∈ reads, q = p' ++ b := by
  induction reads generalizing p with
  | nil => cases hq
  | cons b bs ih =>
      rcases List.mem_cons.mp hq with rfl | hq
      · exact ⟨p, b, by simp, rfl⟩
      · obtain ⟨p', c, hc, hqc⟩ := ih hq
        exact ⟨p', c, by simp [hc], hqc⟩

/-- Where the terminator cannot occur, everything stays pending. -/
theorem receiveAll_of_notMem {t : List α} {c : α} (hc : c ∈ t) {reads : List (List α)}
    (hreads : c ∉ reads.flatten) : receiveAll t [] reads = ([], reads.flatten) := by
  have hconserve := receiveAll_conserves t [] reads
  have hnone : (receiveAll t [] reads).1 = [] := by
    apply List.eq_nil_iff_forall_not_mem.mpr
    intro body hbody
    apply hreads
    rw [← List.nil_append reads.flatten, ← hconserve]
    refine List.mem_append_left _ (List.mem_flatMap.mpr ⟨body, hbody, ?_⟩)
    exact List.mem_append_right body hc
  apply Prod.ext hnone
  simpa [hnone] using hconserve

/-! ## One frame -/

/-- The reads of one frame: nothing comes out before the last of them, and then the body does. -/
theorem receiveAll_group {t p body : List α} {group : List (List α)} (hne : group ≠ [])
    (hreads : ∀ b ∈ group, b ≠ []) (hframe : p ++ group.flatten = body ++ t)
    (honce : EndsOnce t (body ++ t)) : receiveAll t p group = ([body], []) := by
  induction group generalizing p with
  | nil => exact absurd rfl hne
  | cons b bs ih =>
      cases bs with
      | nil =>
          have hb : p ++ b = body ++ t := by simpa using hframe
          simp [receiveAll, receive_of_isSuffix hb]
      | cons c cs =>
          have hrest : p ++ b ++ (c :: cs).flatten = body ++ t := by simpa using hframe
          have hopen : ¬t <:+ p ++ b := by
            rw [← hrest] at honce
            rw [honce.isSuffix_iff]
            simp [hreads c (by simp)]
          have hnext := ih (p := p ++ b) (by simp) (fun d hd => hreads d (by simp [hd])) hrest
          simp only [receiveAll, receive_of_not_isSuffix hopen] at hnext ⊢
          simpa using hnext

/-- While a frame builds up, the texts looked at are its beginnings. -/
theorem pendings_group {t p body : List α} {group : List (List α)}
    (hreads : ∀ b ∈ group, b ≠ []) (hframe : p ++ group.flatten = body ++ t)
    (honce : EndsOnce t (body ++ t)) : pendings t p group = partials p group := by
  induction group generalizing p with
  | nil => rfl
  | cons b bs ih =>
      cases bs with
      | nil => rfl
      | cons c cs =>
          have hrest : p ++ b ++ (c :: cs).flatten = body ++ t := by simpa using hframe
          have hopen : ¬t <:+ p ++ b := by
            rw [← hrest] at honce
            rw [honce.isSuffix_iff]
            simp [hreads c (by simp)]
          unfold pendings
          rw [partials, receive_of_not_isSuffix hopen,
            ih (fun d hd => hreads d (by simp [hd])) hrest]

omit [DecidableEq α] in
/-- The longest partial text is the last one. -/
theorem forall_partials_length_lt {p : List α} {group : List (List α)} {n : ℕ}
    (hne : group ≠ []) :
    (∀ q ∈ partials p group, q.length < n) ↔ (p ++ group.flatten).length < n := by
  induction group generalizing p with
  | nil => exact absurd rfl hne
  | cons b bs ih =>
      cases bs with
      | nil => simp [partials]
      | cons c cs =>
          unfold partials
          rw [List.forall_mem_cons, ih (by simp)]
          simp only [List.flatten_cons, List.length_append]
          omega

omit [DecidableEq α] in
/-- The shortest partial text is the first one. -/
theorem forall_le_partials_length {p b : List α} {group : List (List α)} {n : ℕ} :
    (∀ q ∈ partials p (b :: group), n ≤ q.length) ↔ n ≤ (p ++ b).length := by
  induction group generalizing p b with
  | nil => simp [partials]
  | cons c cs ih =>
      unfold partials
      rw [List.forall_mem_cons, ih]
      simp only [List.length_append]
      omega

/-! ## Frames and reads -/

/-- Whatever comes out leaving nothing pending was aligned with the reads. -/
theorem Aligned.of_receiveAll {t : List α} {bodies reads : List (List α)}
    (hreads : ∀ b ∈ reads, b ≠ []) (h : receiveAll t [] reads = (bodies, [])) :
    Aligned t bodies reads := by
  -- `group` holds the reads of the frame under construction
  suffices hgen : ∀ (reads group bodies : List (List α)), (∀ b ∈ reads, b ≠ []) →
      receiveAll t group.flatten reads = (bodies, []) → (group = [] ∨ reads ≠ []) →
      Aligned t bodies (group ++ reads) by
    simpa using hgen reads [] bodies hreads h (.inl rfl)
  intro reads
  induction reads with
  | nil =>
      intro group bodies _ h hor
      obtain rfl : group = [] := hor.resolve_right (by simp)
      obtain rfl : bodies = [] := by simpa [receiveAll] using (congrArg Prod.fst h).symm
      exact .nil
  | cons b bs ih =>
      intro group bodies hreads h _
      have hbs : ∀ c ∈ bs, c ≠ [] := fun c hc => hreads c (by simp [hc])
      by_cases hs : t <:+ group.flatten ++ b
      · obtain ⟨body, hb⟩ := hs
        simp only [receiveAll, receive_of_isSuffix hb.symm] at h
        obtain ⟨rfl, h2⟩ := Prod.mk.inj h
        have htail := ih [] (receiveAll t [] bs).1 hbs (Prod.ext rfl h2) (.inl rfl)
        have hgroup : (group ++ [b]).flatten = body ++ t := by simpa using hb.symm
        simpa using Aligned.frame hgroup (by simpa using htail)
      · simp only [receiveAll, receive_of_not_isSuffix hs, Option.toList_none,
          List.nil_append] at h
        have hflat : (group ++ [b]).flatten = group.flatten ++ b := by simp
        have hlast : bs ≠ [] := by
          rintro rfl
          have : group.flatten ++ b = [] := (Prod.mk.inj h).2
          exact hreads b (by simp) (List.append_eq_nil_iff.mp this).2
        have := ih (group ++ [b]) bodies hbs (by rw [hflat]; exact h) (.inr hlast)
        simpa using this

/-- Aligned frames come out as they were sent. -/
theorem Aligned.receiveAll {t : List α} {bodies reads : List (List α)} (hne : t ≠ [])
    (hreads : ∀ b ∈ reads, b ≠ []) (honce : ∀ body ∈ bodies, EndsOnce t (body ++ t))
    (h : Aligned t bodies reads) : ME2U.receiveAll t [] reads = (bodies, []) := by
  induction h with
  | nil => rfl
  | @frame body bodies group reads hgroup _ ih =>
      have hg : group ≠ [] := by
        rintro rfl
        exact hne (List.append_eq_nil_iff.mp hgroup.symm).2
      rw [receiveAll_append,
        receiveAll_group hg (fun b hb => hreads b (by simp [hb])) (by simpa using hgroup)
          (honce body (by simp)),
        ih (fun b hb => hreads b (by simp [hb])) fun c hc => honce c (by simp [hc])]
      rfl

/-- **Exactness**: frames that end once in the terminator come out as they were sent, and nothing
is left pending, iff every frame ends where a read ends. -/
theorem receiveAll_eq_iff {t : List α} {bodies reads : List (List α)} (hne : t ≠ [])
    (hreads : ∀ b ∈ reads, b ≠ []) (honce : ∀ body ∈ bodies, EndsOnce t (body ++ t)) :
    receiveAll t [] reads = (bodies, []) ↔ Aligned t bodies reads :=
  ⟨Aligned.of_receiveAll hreads, Aligned.receiveAll hne hreads honce⟩

/-- A condition on the texts looked at, for a frame and the reads behind it. -/
theorem forall_pendings_append_iff {t body : List α} {group reads : List (List α)}
    (hne : t ≠ []) (hreads : ∀ b ∈ group, b ≠ []) (hgroup : group.flatten = body ++ t)
    (honce : EndsOnce t (body ++ t)) (P : List α → Prop) :
    (∀ q ∈ pendings t [] (group ++ reads), P q) ↔
      (∀ q ∈ partials [] group, P q) ∧ ∀ q ∈ pendings t [] reads, P q := by
  have hg : group ≠ [] := by
    rintro rfl
    exact hne (List.append_eq_nil_iff.mp hgroup.symm).2
  rw [pendings_append, pendings_group hreads (by simpa using hgroup) honce,
    receiveAll_group hg hreads (by simpa using hgroup) honce, List.forall_mem_append]

end ME2U
