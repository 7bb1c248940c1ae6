import ME2U.Client.Buffer

/-!
# How the client finds frames in the byte stream

`process_string` looks at the end of the pending text only. So the frames come out as they were
sent where every frame ends at the end of a read; a read that goes on behind the end of a frame
glues that frame to what follows.

* `processReads_returns_bodies_iff`: the strings returned are the bodies sent iff the reads are
  aligned with the frames.
* `readsAligned_iff`: what that is in terms of the receiver: it returns the bodies, and the texts it
  looks at fit the block.
-/

namespace ME2U.Client

/-- The reads fall into groups, one a frame. The first read of a group holds four bytes, so that
the comparison with the ending stays in the block, and the frame fits the block. -/
inductive ReadsAligned : List Bytes → List Bytes → Prop
  | nil : ReadsAligned [] []
  | frame {body bodies first more reads} : (first :: more).flatten = body ++ ending →
      4 ≤ first.length → (body ++ ending).length < bufLimit → ReadsAligned bodies reads →
      ReadsAligned (body :: bodies) (first :: more ++ reads)

/-- A body that the ending is recognised behind: it has no NUL and no carriage return. -/
structure IsBody (body : Bytes) : Prop where
  zero_notMem : 0 ∉ body
  cr_notMem : 13 ∉ body

/-- A frame has its ending at the end only. -/
theorem IsBody.endsOnce {body : Bytes} (h : IsBody body) : EndsOnce ending (body ++ ending) :=
  endsOnce_append_of_notMem h.cr_notMem

/-- The texts looked at while a frame comes in are manageable when its first and its last are. -/
theorem forall_partials_manageable_iff {first : Bytes} {more : List Bytes} :
    (∀ q ∈ partials [] (first :: more), Manageable q) ↔
      4 ≤ first.length ∧ (first :: more).flatten.length < bufLimit := by
  unfold Manageable
  rw [forall₂_and, forall_le_partials_length, forall_partials_length_lt (List.cons_ne_nil _ _)]
  simp

/-- Reads are aligned where they end with the frames and the pending texts are manageable. -/
theorem readsAligned_iff {bodies reads : List Bytes} (hbodies : ∀ body ∈ bodies, IsBody body)
    (hreads : ∀ b ∈ reads, b ≠ []) :
    ReadsAligned bodies reads ↔
      Aligned ending bodies reads ∧ ∀ q ∈ pendings ending [] reads, Manageable q := by
  constructor
  · intro h
    induction h with
    | nil => exact ⟨.nil, by simp [pendings]⟩
    | @frame body bodies first more reads hgroup hfirst hlen _ ih =>
        obtain ⟨hal, hq⟩ := ih (fun c hc => hbodies c (by simp [hc]))
          fun b hb => hreads b (by simp [hb])
        refine ⟨.frame hgroup hal, ?_⟩
        rw [forall_pendings_append_iff ending_ne_nil (fun b hb => hreads b (by
          rcases List.mem_cons.mp hb with rfl | hb <;> simp_all)) hgroup
          (hbodies body (by simp)).endsOnce, forall_partials_manageable_iff, hgroup]
        exact ⟨⟨hfirst, hlen⟩, hq⟩
  · rintro ⟨hal, hq⟩
    induction hal with
    | nil => exact .nil
    | @frame body bodies group reads hgroup _ ih =>
        have hg : ∀ b ∈ group, b ≠ [] := fun b hb => hreads b (by simp [hb])
        rw [forall_pendings_append_iff ending_ne_nil hg hgroup
          (hbodies body (by simp)).endsOnce] at hq
        cases group with
        | nil =>
            have hlen := congrArg List.length hgroup
            simp at hlen
        | cons first more =>
            rw [forall_partials_manageable_iff, hgroup] at hq
            exact .frame hgroup hq.1.1 hq.1.2
              (ih (fun c hc => hbodies c (by simp [hc])) (fun b hb => hreads b (by simp [hb])) hq.2)

/-- The reads of a stream of bodies hold no NUL. -/
theorem isRead_of_stream {bodies reads : List Bytes} (hbodies : ∀ body ∈ bodies, IsBody body)
    (hstream : reads.flatten = bodies.flatMap (· ++ ending))
    (hlen : ∀ b ∈ reads, b.length < maxline) : ∀ b ∈ reads, IsRead b := by
  intro b hb
  refine ⟨fun h0 => ?_, hlen b hb⟩
  have hmem : (0 : UInt8) ∈ bodies.flatMap (· ++ ending) := by
    rw [← hstream]
    exact List.mem_flatten.mpr ⟨b, hb, h0⟩
  obtain ⟨body, hbody, h0⟩ := List.mem_flatMap.mp hmem
  rcases List.mem_append.mp h0 with h | h
  · exact (hbodies body hbody).zero_notMem h
  · exact absurd h (by decide)

/-- **When the frames come out as they were sent**: for all bodies and all ways of cutting their
stream into reads, the strings returned are the bodies iff the reads are aligned. -/
theorem processReads_returns_bodies_iff (bodies reads : List Bytes)
    (hbodies : ∀ body ∈ bodies, IsBody body) (hreads : ∀ b ∈ reads, b ≠ [] ∧ b.length < maxline)
    (hstream : reads.flatten = bodies.flatMap (· ++ ending)) :
    (∃ strs s, (processReads reads).run (.of []) = (.ok strs, s) ∧ strs.reduceOption = bodies) ↔
      ReadsAligned bodies reads := by
  have hne : ∀ b ∈ reads, b ≠ [] := fun b hb => (hreads b hb).1
  have hread := isRead_of_stream hbodies hstream fun b hb => (hreads b hb).2
  have hnil : (0 : UInt8) ∉ ([] : Bytes) := by simp
  have hlim : ([] : Bytes).length < bufLimit := by decide
  have hconserve := receiveAll_conserves ending [] reads
  rw [List.nil_append, hstream] at hconserve
  have honce : ∀ body ∈ bodies, EndsOnce ending (body ++ ending) :=
    fun body hbody => (hbodies body hbody).endsOnce
  rw [readsAligned_iff hbodies hne]
  constructor
  · rintro ⟨strs, s, hrun, hstrs⟩
    have hq := (run_processReads_ok_iff hnil hread hlim).mp ⟨strs, s, hrun⟩
    rw [run_processReads hnil hread hlim hq] at hrun
    simp only [Prod.mk.injEq, Except.ok.injEq] at hrun
    rw [← hrun.1, reduceOption_outcomes] at hstrs
    -- the bodies came out, so nothing is left pending
    rw [hstrs] at hconserve
    have hpend : (receiveAll ending [] reads).2 = [] := by simpa using hconserve
    exact ⟨(receiveAll_eq_iff ending_ne_nil hne honce).mp (Prod.ext hstrs hpend), hq⟩
  · rintro ⟨hal, hq⟩
    refine ⟨_, _, run_processReads hnil hread hlim hq, ?_⟩
    rw [reduceOption_outcomes, (receiveAll_eq_iff ending_ne_nil hne honce).mpr hal]

/-- A frame that arrives in two reads. -/
theorem processReads_returns_split_frame :
    ∃ strs s, (processReads [[97, 13, 10, 13], [10]]).run (.of []) = (.ok strs, s) ∧
      strs.reduceOption = [[97]] := by
  refine (processReads_returns_bodies_iff [[97]] [[97, 13, 10, 13],
    [10]] (fun body h => ?_) (by decide) (by decide)).mpr ?_
  · obtain rfl := List.mem_singleton.mp h
    exact ⟨by decide, by decide⟩
  · exact @ReadsAligned.frame [97] [] [97, 13, 10, 13] [[10]] [] (by decide) (by decide) (by decide)
      .nil

/-- Two frames in one read. -/
private def twoFrames : Bytes := 97 :: (ending ++ 98 :: ending)

/-- Two frames that arrive in one read come out as one string. -/
theorem not_processReads_returns_bodies :
    ¬∀ bodies reads : List Bytes, (∀ body ∈ bodies, IsBody body) →
      (∀ b ∈ reads, b ≠ [] ∧ b.length < maxline) →
      reads.flatten = bodies.flatMap (· ++ ending) →
      ∃ strs s, (processReads reads).run (.of []) = (.ok strs, s) ∧ strs.reduceOption = bodies := by
  intro hall
  obtain ⟨strs, s, hrun, hstrs⟩ := hall [[97], [98]] [twoFrames]
    (fun body h => by
      rcases List.mem_pair.mp h with rfl | rfl <;> exact ⟨by decide, by decide⟩)
    (by decide) (by decide)
  have hread : ∀ b ∈ [twoFrames], IsRead b := by
    intro b hb
    obtain rfl := List.mem_singleton.mp hb
    exact ⟨by decide, by decide⟩
  have hmanageable : ∀ q ∈ pendings ending [] [twoFrames], Manageable q := by
    intro q hq
    obtain rfl := List.mem_singleton.mp hq
    exact ⟨by decide, by decide⟩
  rw [run_processReads (by simp) hread (by decide) hmanageable] at hrun
  simp only [Prod.mk.injEq, Except.ok.injEq] at hrun
  rw [← hrun.1] at hstrs
  exact absurd hstrs (by decide)

end ME2U.Client
