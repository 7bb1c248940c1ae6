import ME2U.Hw1Client.Program

/-!
# What `hw1_client` writes

By its steps over strings, everything that the earlier client writes to the socket in a run has its
place: the login first, then requests and replies, and at most one `BYE` as the last. Where the
input is shut, the socket is shut down for writing: the reply to a message raises `SIGPIPE` there. A
message typed is written once, and a message read is answered once, each in its turn.

* `InOrder`, `Program.writes_inOrder`: the order of the frames, and none where the input is shut.
* `typed`, `Program.writes_typed`: a frame for each message typed.
* `answer`, `Program.writes_answers`: a reply for each message read.
-/

namespace ME2U.Hw1Client

open Client (Halt ending userHelp userListu userChat userLogout msgTo)

namespace Program

/-! ## What is written -/

/-- A request. -/
def IsRequest (x : Bytes) : Prop := x = clientListUser ++ ending ∨ ∃ t, x = msgTo ++ t ++ ending

/-- A reply to a message. -/
def IsReply (x : Bytes) : Prop := ∃ w, x = confirmMsgFrom ++ 32 :: (w ++ ending)

/-- The last request. -/
def byeFrame : Bytes := clientBye ++ ending

/-- The greeting and the name, then requests and replies. -/
def Talking (name : Except Fault Bytes) (out : List Bytes) : Prop :=
  ∃ n xs, name = .ok n ∧ out = me2uFrame :: iamFrame n :: xs ∧ ∀ x ∈ xs, IsRequest x ∨ IsReply x

/-- The same, with a last request behind it, if any. -/
def InOrder (name : Except Fault Bytes) (out : List Bytes) : Prop :=
  ∃ xs last, Talking name xs ∧ last <+: [byeFrame] ∧ out = xs ++ last

/-- What was written in the login. -/
def Introduced (name : Except Fault Bytes) (out : List Bytes) : LoginState → Prop
  | .start => out = []
  | .hello | .name => out = [me2uFrame]
  | .approval | .motd | .done => ∃ n, name = .ok n ∧ out = [me2uFrame, iamFrame n]

/-- What was written by then. -/
def Spoken (name : Except Fault Bytes) (out : List Bytes) : Stage → Prop
  | .login st => Introduced name out st
  | .chat false => Talking name out
  | .chat true => InOrder name out
  | .ended _ => out <+: [me2uFrame] ∨ InOrder name out

/-- A message of the server is answered with replies only, -/
theorem serverReaction_sends (s : Bytes) :
    (serverReaction s).shuts = false ∧ ∀ x ∈ (serverReaction s).sends, IsReply x := by
  unfold serverReaction
  split_ifs
  · exact ⟨rfl, nofun⟩
  · exact ⟨rfl, nofun⟩
  · cases (strtok 32 (s.drop (msgFrom.length + 1))).head? with
    | none => exact ⟨rfl, nofun⟩
    | some w => exact ⟨rfl, fun x hx => ⟨w, List.mem_singleton.mp hx⟩⟩
  · exact ⟨rfl, nofun⟩
  · exact ⟨rfl, nofun⟩
  · exact ⟨rfl, nofun⟩

/-- and a line sends requests, or the `BYE` in front of a shutdown. -/
theorem inputReaction_sends (s : Bytes) :
    ((inputReaction s).shuts = false ∧ ∀ x ∈ (inputReaction s).sends, IsRequest x) ∨
      (inputReaction s).shuts = true ∧ (inputReaction s).sends <+: [byeFrame] := by
  unfold inputReaction
  split_ifs
  · exact .inl ⟨rfl, nofun⟩
  · exact .inl ⟨rfl, fun x hx => .inl (List.mem_singleton.mp hx)⟩
  · exact .inl ⟨rfl, fun x hx => .inr ⟨_, List.mem_singleton.mp hx⟩⟩
  · exact .inr ⟨rfl, List.prefix_refl _⟩
  · exact .inr ⟨rfl, List.nil_prefix⟩

section Order

variable {name : Except Fault Bytes} {st : Stage} {shut : Bool} {out : List Bytes} {i : Input}

/-- Nothing was shut yet. -/
theorem Talking.inOrder (h : Talking name out) : InOrder name out :=
  ⟨out, [], h, List.nil_prefix, (List.append_nil out).symm⟩

/-- Requests and replies go on with the talk. -/
theorem Talking.append (h : Talking name out) {sends : List Bytes}
    (hsends : ∀ x ∈ sends, IsRequest x ∨ IsReply x) : Talking name (out ++ sends) := by
  obtain ⟨n, xs, hname, rfl, hxs⟩ := h
  exact ⟨n, xs ++ sends, hname, rfl, List.forall_mem_append.mpr ⟨hxs, hsends⟩⟩

/-- What an iteration sends before the input is shut: requests and replies, or the last request. -/
theorem chatReaction_sends (i : Input) :
    ((chatReaction false i).shuts = false ∧ ∀ x ∈ (chatReaction false i).sends,
      IsRequest x ∨ IsReply x) ∨
      (chatReaction false i).shuts = true ∧ (chatReaction false i).sends <+: [byeFrame] := by
  cases i with
  | nothing => exact .inl ⟨rfl, List.forall_mem_nil _⟩
  | server g =>
      cases g with
      | string s =>
          obtain ⟨hopen, hsends⟩ := serverReaction_sends s
          rw [chatReaction, Reaction.behind_false]
          exact .inl ⟨hopen, fun x hx => .inr (hsends x hx)⟩
      | eof | overrun => exact .inl ⟨rfl, List.forall_mem_nil _⟩
  | user g =>
      cases g with
      | string s =>
          rw [chatReaction, Reaction.behind_false]
          exact (inputReaction_sends s).imp_left fun h => ⟨h.1, fun x hx => .inl (h.2 x hx)⟩
      | eof => exact .inr ⟨rfl, List.nil_prefix⟩
      | overrun => exact .inl ⟨rfl, List.forall_mem_nil _⟩

/-- **Where the input is shut**, nothing is sent. -/
theorem chatReaction_shut (hi : (Stage.chat true).Reads i) :
    (chatReaction true i).sends = [] ∧ (chatReaction true i).shuts = false := by
  match i with
  | .nothing => exact ⟨rfl, rfl⟩
  | .server (.string s) =>
      rw [chatReaction, Reaction.behind]
      split_ifs with h
      · exact ⟨rfl, rfl⟩
      · exact ⟨not_not.mp fun hsends => h ⟨rfl, hsends⟩, (serverReaction_sends s).1⟩
  | .server .eof => exact ⟨rfl, rfl⟩
  | .server .overrun => exact ⟨rfl, rfl⟩
  | .user g => exact absurd hi.1 (by decide)

/-- An iteration of the chat. -/
theorem Spoken.chat (h : Spoken name out (.chat shut)) (hi : (Stage.chat shut).Reads i) :
    InOrder name (out ++ (chatReaction shut i).sends) ∧
      Spoken name (out ++ (chatReaction shut i).sends)
      (.chat (shut || (chatReaction shut i).shuts)) := by
  cases shut with
  | false =>
      rw [Bool.false_or]
      rcases chatReaction_sends i with ⟨hopen, hsends⟩ | ⟨hshut, hlast⟩
      · have htalking : Talking name (out ++ (chatReaction false i).sends) :=
          Talking.append h hsends
        rw [hopen]
        exact ⟨htalking.inOrder, htalking⟩
      · have horder : InOrder name (out ++ (chatReaction false i).sends) := ⟨out, _, h, hlast, rfl⟩
        rw [hshut]
        exact ⟨horder, horder⟩
  | true =>
      rw [(chatReaction_shut hi).1, List.append_nil]
      exact ⟨h, h⟩

/-- In a state that sends nothing by itself, nothing is sent, and the next one is as far. -/
theorem loginReaction_quiet (name : Except Fault Bytes) (out : List Bytes) {ls : LoginState}
    (hstart : ls ≠ .start) (hname : ls ≠ .name) (i : Input) :
    (loginReaction name ls i).2 = [] ∧
      ∀ ls', (loginReaction name ls i).1 = .ok ls' →
        (Introduced name out ls ↔ Introduced name out ls') := by
  have hstring : ∀ s ls', loginString ls s = .ok ls' →
      (Introduced name out ls ↔ Introduced name out ls') := by
    intro s ls'
    fun_cases loginString ls s <;> intro h <;> cases h <;> exact Iff.rfl
  have hsame : ∀ ls', (.ok ls : Except Halt LoginState) = .ok ls' →
      (Introduced name out ls ↔ Introduced name out ls') := by
    rintro ls' h
    cases h
    exact Iff.rfl
  cases ls with
  | start => exact absurd rfl hstart
  | name => exact absurd rfl hname
  | hello | approval | motd | done =>
      match i with
      | .nothing => exact ⟨rfl, hsame⟩
      | .server (.string s) => exact ⟨rfl, hstring s⟩
      | .server .eof => exact ⟨rfl, nofun⟩
      | .server .overrun => exact ⟨rfl, nofun⟩
      | .user g => cases g <;> exact ⟨rfl, hsame⟩

/-- Who has introduced himself is ready for the chat. -/
theorem Introduced.talking (h : Introduced name out .done) : Talking name out := by
  obtain ⟨n, hname, rfl⟩ := h
  exact ⟨n, [], hname, rfl, nofun⟩

/-- Where the login stops, no more was written. -/
theorem Introduced.spoken {ls : LoginState} (h : Introduced name out ls) (how : Except Halt Unit) :
    Spoken name out (.ended how) := by
  cases ls with
  | start => exact .inl (h ▸ List.nil_prefix)
  | hello | name => exact .inl (h ▸ List.prefix_refl _)
  | approval | motd | done => exact .inr (Introduced.talking h).inOrder

/-- The end of the login is the start of the talk. -/
theorem Introduced.afterLogin {how : Except Halt LoginState} {ls : LoginState}
    (hls : Introduced name out ls)
    (h : ∀ ls', how = .ok ls' → Introduced name out ls') :
    Spoken name out (Stage.afterLogin how) := by
  cases how with
  | error e => exact hls.spoken _
  | ok ls' =>
      have hls' := h ls' rfl
      rw [Stage.afterLogin]
      split_ifs with hdone
      · subst hdone
        exact hls'.talking
      · exact hls'

/-- **A step** keeps what is written in order. -/
theorem Spoken.step (h : Spoken name out st) (hi : st.Reads i) :
    Spoken name (out ++ ((machine name).step st i).2) ((machine name).step st i).1 := by
  cases st with
  | ended how =>
      rw [show (machine name).step (.ended how) i = (.ended how, []) from rfl, List.append_nil]
      exact h
  | chat shut =>
      obtain ⟨horder, hspoken⟩ := Spoken.chat h hi
      show Spoken name (out ++ (chatReaction shut i).sends)
        (.afterChat _ (chatReaction shut i).ends)
      match hends : (chatReaction shut i).ends with
      | .ok false => exact hspoken
      | .ok true => exact .inr horder
      | .error e => exact .inr horder
  | login ls =>
      show Spoken name (out ++ (loginReaction name ls i).2)
        (.afterLogin (loginReaction name ls i).1)
      by_cases hstart : ls = .start
      · subst hstart
        obtain rfl : out = [] := h
        rfl
      by_cases hname : ls = .name
      · subst hname
        obtain rfl : out = [me2uFrame] := h
        rw [loginReaction_name]
        cases name with
        | ok n => exact ⟨n, rfl, rfl⟩
        | error f => exact .inl (List.prefix_refl _)
      · obtain ⟨hsends, hnext⟩ := loginReaction_quiet name out hstart hname i
        rw [hsends, List.append_nil]
        exact Introduced.afterLogin h fun ls' hls' => (hnext ls' hls').mp h

end Order

section Runs

variable {slack : ℕ} (hslack : 5 ≤ slack) {userName : Block} {p : Program}

include hslack in
/-- In every reached state the frames are as the stage says. -/
theorem spoken_of_reached (h : Reached slack userName p) :
    Spoken (cstr userName) p.written p.stage := by
  induction h with
  | start hinit =>
      subst hinit
      rfl
  | step _ hcan hturn ih =>
      subst hturn
      obtain ⟨i, hi, hfollows⟩ := exists_follows hslack hcan
      rw [hfollows.written, hfollows.stage]
      exact ih.step hi

/-- The input is shut, or all is over. -/
def Shut (p : Program) : Prop := p.stage = .chat true ∨ ∃ how, p.stage = .ended how

/-- A client behind the end of its input is in its last stage, or has ended. -/
theorem shut_of_inputShut (h : p.inputShut = true) : p.Shut := by
  cases hended : p.ended with
  | some how => exact .inr ⟨how, stage_ended hended⟩
  | none =>
      obtain ⟨c, hchat, hc⟩ := (Option.any_eq_true _ _).mp h
      exact .inl ((stage_chat hended hchat).trans (congrArg _ hc))

include hslack in
/-- A step then writes nothing. -/
theorem Shut.turn {e : Event} (hshut : p.Shut) (he : e.Can p) :
    (p.turn slack userName e).Shut ∧ (p.turn slack userName e).written = p.written := by
  obtain ⟨i, hi, hfollows⟩ : ∃ i, p.stage.Reads i ∧
      Follows (cstr userName) p i (p.turn slack userName e) :=
    exists_follows hslack he
  rcases hshut with hchat | ⟨how, hended⟩
  · have hstage := hfollows.stage
    have hwritten := hfollows.written
    rw [hchat] at hi hstage hwritten
    obtain ⟨hsends, -⟩ := chatReaction_shut hi
    replace hwritten : _ = p.written ++ (chatReaction true i).sends := hwritten
    rw [hsends, List.append_nil] at hwritten
    replace hstage : _ = Stage.afterChat (true || _) (chatReaction true i).ends := hstage
    refine ⟨?_, hwritten⟩
    rw [Shut, hstage]
    match (chatReaction true i).ends with
    | .ok false => exact .inl rfl
    | .ok true => exact .inr ⟨_, rfl⟩
    | .error e => exact .inr ⟨_, rfl⟩
  · exact absurd hended (stage_ne_ended he.ended how)

include hslack in
/-- Nothing is written from there on. -/
theorem Shut.written_eq {p' : Program} (hshut : p.Shut) (h : Continues slack userName p p') :
    p'.Shut ∧ p'.written = p.written := by
  induction h with
  | start hinit =>
      subst hinit
      exact ⟨hshut, rfl⟩
  | step _ hcan hturn ih =>
      subst hturn
      obtain ⟨hshut', hwritten⟩ := ih
      obtain ⟨hnext, hsame⟩ := Shut.turn hslack hshut' hcan
      exact ⟨hnext, hsame.trans hwritten⟩

include hslack in
/-- **What a run writes is in order**: the greeting, the name, requests and replies, and at most one
last request; and where the input is shut, nothing more is ever written. -/
theorem writes_inOrder (h : Reached slack userName p) :
    (p.written <+: [me2uFrame] ∨ InOrder (cstr userName) p.written) ∧
      (p.inputShut = true → ∀ p', Continues slack userName p p' → p'.written = p.written) := by
  refine ⟨?_, fun hshut p' hp' => ((shut_of_inputShut hshut).written_eq hslack hp').2⟩
  have hspoken := spoken_of_reached hslack h
  cases hstage : p.stage with
  | login ls =>
      rw [hstage] at hspoken
      exact Introduced.spoken hspoken (.ok ())
  | chat shut =>
      rw [hstage] at hspoken
      cases shut with
      | false => exact .inr (Talking.inOrder hspoken)
      | true => exact .inr hspoken
  | ended how =>
      rw [hstage] at hspoken
      exact hspoken

/-- A run with a login, a message and a line. -/
theorem exists_talk : ∃ p, Reached 5 (textBlock neal 16) p ∧ p.took = talk ∧ p.ended = none := by
  obtain ⟨p, hp, htook, hstage, -⟩ :=
    (implements (Nat.le_refl 5)).run_iff.mpr ⟨along_talk, run_talk⟩
  refine ⟨p, hp, htook, ?_⟩
  cases hended : p.ended with
  | none => rfl
  | some how => cases (stage_ended hended).symm.trans hstage

/-- The line for the last request. -/
def byeLine : Input := .user (.string (userLogout ++ [10]))

/-- A message that is read behind `/logout`: the reply to it is not written. -/
theorem writes_inOrder_talk : ∃ p p', Reached 5 (textBlock neal 16) p ∧ p.inputShut = true ∧
    p.written = talkFrames ++ [byeFrame] ∧ InOrder (cstr (textBlock neal 16)) p.written ∧
      Continues 5 (textBlock neal 16) p p' ∧
        p'.took = p.took ++
          [.server (.string (msgFrom ++ encode (String.toList " bo hi") ++ ending))] ∧
          p'.written = p.written := by
  have hshort : ∀ n, n < 100 → n < maxline := fun n hn => hn.trans (by decide)
  have hstep : ((machine (cstr (textBlock neal 16))).run (.login .start) (talk ++ [byeLine])) =
      (.chat true, talkFrames ++ [byeFrame]) := rfl
  have hreads : (Stage.chat false).Reads byeLine := ⟨rfl, by decide, hshort _ (by decide)⟩
  obtain ⟨p, hp, -, hstage, hwritten⟩ := (implements (Nat.le_refl 5)).run_iff.mpr
    ⟨(machine _).along_concat.mpr ⟨along_talk, run_talk ▸ hreads⟩, hstep⟩
  replace hstage : p.stage = .chat true := hstage
  have hmessage : p.stage.Reads
      (.server (.string (msgFrom ++ encode (String.toList " bo hi") ++ ending))) := by
    rw [hstage]
    exact ⟨by decide, hshort _ (by decide)⟩
  obtain ⟨e, he, htook⟩ : ∃ e : Event, e.Can p ∧
      (p.turn 5 (textBlock neal 16) e).took = p.took ++ [_] :=
    exists_turn hmessage
  have hp' : Continues 5 (textBlock neal 16) p (p.turn 5 (textBlock neal 16) e) :=
    .step (.start rfl) he rfl
  have hshut := inputShut_of_stage hstage
  obtain ⟨horder, hsame⟩ := writes_inOrder (Nat.le_refl 5) hp
  replace hwritten : p.written = talkFrames ++ [byeFrame] := hwritten
  refine ⟨p, _, hp, hshut, hwritten, horder.resolve_left fun h => ?_, hp', htook, hsame hshut _ hp'⟩
  rw [hwritten] at h
  revert h
  decide

end Runs

/-! ## Lines and messages -/

/-- The frame for a message typed. -/
def typed : Input → Option Bytes
  | .user (.string s) =>
      if userChat <+: s then some (msgTo ++ s.drop userChat.length ++ ending) else none
  | _ => none

/-- The reply to a message. -/
def answer : Input → Option Bytes
  | .server (.string s) =>
      if msgFrom <+: s then
        (strtok 32 (s.drop (msgFrom.length + 1))).head?.map fun w =>
          confirmMsgFrom ++ 32 :: (w ++ ending)
      else none
  | _ => none

/-- A string does not begin in two ways. -/
theorem not_prefix_of_apart {a b s : Bytes} (h : a <+: s) (hab : ¬(a <+: b ∨ b <+: a)) : ¬b <+: s :=
  fun hb =>
  hab (List.prefix_or_prefix_of_prefix h hb)

section Projections

/-- The frames that begin with a verb. -/
def ofVerb (verb : Bytes) (out : List Bytes) : List Bytes := out.filter (verb <+: ·)

/-- The frames of a verb, in two parts, -/
theorem ofVerb_append (verb : Bytes) (xs ys : List Bytes) :
    ofVerb verb (xs ++ ys) = ofVerb verb xs ++ ofVerb verb ys := List.filter_append ..

/-- in one frame that has it -/
theorem ofVerb_singleton (verb t : Bytes) : ofVerb verb [verb ++ t] = [verb ++ t] :=
  List.filter_eq_self.mpr (by simp)

/-- and in one that has another. -/
theorem ofVerb_apart {verb w : Bytes} (h : ¬(w <+: verb ∨ verb <+: w)) (t : Bytes) :
    ofVerb verb [w ++ t] = [] := by
  have hno := not_prefix_of_apart (List.prefix_append w t) h
  simp [ofVerb, hno]

variable (s : Bytes)

/-- No message of the server is answered with a `TO`, -/
theorem serverReaction_typed : ofVerb msgTo (serverReaction s).sends = [] := by
  unfold serverReaction
  split_ifs
  · rfl
  · rfl
  · cases (strtok 32 (s.drop (msgFrom.length + 1))).head? with
    | none => rfl
    | some w => exact ofVerb_apart (by decide) _
  · rfl
  · rfl
  · rfl

/-- but a `FROM` with its `MORF`. -/
theorem serverReaction_answer :
    ofVerb confirmMsgFrom (serverReaction s).sends = (answer (.server (.string s))).toList := by
  unfold serverReaction answer
  by_cases hfrom : msgFrom <+: s
  · have hempty : s ≠ [] := fun h => absurd (List.prefix_nil.mp (h ▸ hfrom)) (by decide)
    have hcrlf : ¬[13, 10] <+: s := not_prefix_of_apart hfrom (by decide)
    have hutsil : ¬serverListUser <+: s := not_prefix_of_apart hfrom (by decide)
    have hot : ¬confirmMsgTo <+: s := not_prefix_of_apart hfrom (by decide)
    rw [if_neg (not_or.mpr ⟨hempty, hcrlf⟩), if_neg (not_or.mpr ⟨hutsil, hot⟩), if_pos hfrom]
    dsimp only
    rw [if_pos hfrom]
    cases (strtok 32 (s.drop (msgFrom.length + 1))).head? with
    | none => rfl
    | some w => exact ofVerb_singleton confirmMsgFrom _
  · rw [if_neg hfrom]
    dsimp only
    rw [if_neg hfrom]
    split_ifs <;> rfl

/-- A line is sent as its `TO` -/
theorem inputReaction_typed :
    ofVerb msgTo (inputReaction s).sends = (typed (.user (.string s))).toList := by
  unfold inputReaction typed
  by_cases hchat : userChat <+: s
  · have hslash : [47] <+: s := (show [47] <+: userChat by decide).trans hchat
    have hhelp : ¬userHelp <+: s := not_prefix_of_apart hchat (by decide)
    have hlistu : ¬userListu <+: s := not_prefix_of_apart hchat (by decide)
    rw [if_neg (not_or.mpr ⟨not_not.mpr hslash, hhelp⟩), if_neg hlistu, if_pos hchat]
    dsimp only
    rw [if_pos hchat, List.append_assoc]
    exact ofVerb_singleton msgTo _
  · rw [if_neg hchat]
    dsimp only
    rw [if_neg hchat]
    split_ifs
    · rfl
    · exact ofVerb_apart (by decide) _
    · exact ofVerb_apart (by decide) _
    · rfl

/-- and never as a `MORF`. -/
theorem inputReaction_answer : ofVerb confirmMsgFrom (inputReaction s).sends = [] := by
  unfold inputReaction
  split_ifs
  · rfl
  · exact ofVerb_apart (by decide) _
  · rw [List.append_assoc]
    exact ofVerb_apart (by decide) _
  · exact ofVerb_apart (by decide) _
  · rfl

end Projections

theorem filterMap_singleton {α β : Type} (f : α → Option β) (a : α) :
    [a].filterMap f = (f a).toList := by
  cases h : f a <;> simp [h]

section Steps

variable {name : Except Fault Bytes} {st : Stage} {i : Input}

/-- In the login there are no messages, neither typed nor read, as long as it goes on. -/
theorem loginReaction_projections (ls : LoginState) {verb : Bytes}
    (hverb : verb = msgTo ∨ verb = confirmMsgFrom) :
    ofVerb verb (loginReaction name ls i).2 = [] := by
  have hgreeting : ofVerb verb [me2uFrame] = [] := by
    rcases hverb with rfl | rfl <;> exact ofVerb_apart (by decide) _
  have hiam : ∀ n, ofVerb verb [iamFrame n] = [] := fun n => by
    rcases hverb with rfl | rfl <;> exact ofVerb_apart (by decide) _
  by_cases hstart : ls = .start
  · subst hstart
    exact hgreeting
  by_cases hname : ls = .name
  · subst hname
    rw [loginReaction_name]
    cases name with
    | ok n => exact hiam n
    | error f => rfl
  · rw [(loginReaction_quiet name [] hstart hname i).1]
    rfl

/-- What is written for a line is the frame for the message in it. -/
theorem step_typed (hi : st.Reads i) :
    ofVerb msgTo ((machine name).step st i).2 = (typed i).toList := by
  cases st with
  | ended how =>
      match i with
      | .nothing => rfl
  | login ls =>
      have htyped : typed i = none := by
        match i with
        | .nothing => rfl
        | .server g => rfl
      rw [htyped]
      exact loginReaction_projections ls (.inl rfl)
  | chat shut =>
      match i with
      | .nothing => rfl
      | .server (.string s) =>
          show ofVerb msgTo ((serverReaction s).behind shut).sends = []
          rcases Reaction.behind_cases shut (serverReaction s) with hsame | ⟨-, hpipe⟩
          · rw [hsame, serverReaction_typed]
          · rw [hpipe]
            rfl
      | .server .eof => rfl
      | .server .overrun => rfl
      | .user (.string s) =>
          obtain rfl : shut = false := hi.1
          show ofVerb msgTo ((inputReaction s).behind false).sends = _
          rw [Reaction.behind_false, inputReaction_typed]
      | .user .eof => rfl
      | .user .overrun => rfl

/-- A login that goes on has not read a message. -/
theorem answer_eq_none {ls : LoginState} (hls : ls.Waits) {s : Bytes} {ls' : LoginState}
    (h : loginString ls s = .ok ls') : answer (.server (.string s)) = none := by
  refine if_neg fun hfrom => ?_
  have hempty : s ≠ [] := fun h => absurd (List.prefix_nil.mp (h ▸ hfrom)) (by decide)
  have hhello : ¬serverLoginInit <+: s := not_prefix_of_apart hfrom (by decide)
  have happrove : ¬serverUserApprove <+: s := not_prefix_of_apart hfrom (by decide)
  have hmotd : ¬serverMotd <+: s := not_prefix_of_apart hfrom (by decide)
  rcases hls with rfl | rfl | rfl
  · rw [loginString, if_neg hempty, if_neg hhello] at h
    cases h
  · rw [loginString, if_neg happrove, if_neg hempty] at h
    split_ifs at h
  · rw [loginString, if_neg hempty, if_neg hmotd] at h
    cases h

/-- What is written for a string is the reply to the message in it. -/
theorem step_answer (hi : st.Reads i) (hnext : ∀ how, ((machine name).step st i).1 ≠ .ended how) :
    ofVerb confirmMsgFrom ((machine name).step st i).2 = (answer i).toList := by
  cases st with
  | ended how => exact absurd rfl (hnext how)
  | login ls =>
      have hanswer : answer i = none := by
        match i with
        | .nothing => rfl
        | .server .eof => rfl
        | .server .overrun => rfl
        | .server (.string s) =>
            have hstep : ∀ how,
                Stage.afterLogin (loginReaction name ls (.server (.string s))).1 ≠ .ended how :=
              hnext
            rw [loginReaction_server hi.1] at hstep
            cases hls : loginString ls s with
            | ok ls' => exact answer_eq_none hi.1 hls
            | error h => exact absurd (congrArg Stage.afterLogin hls) (hstep _)
      rw [hanswer]
      exact loginReaction_projections ls (.inr rfl)
  | chat shut =>
      match i with
      | .nothing => rfl
      | .server (.string s) =>
          show ofVerb confirmMsgFrom ((serverReaction s).behind shut).sends = _
          have hgoes : ∀ how, Stage.afterChat (shut || ((serverReaction s).behind shut).shuts)
              ((serverReaction s).behind shut).ends ≠ .ended how := hnext
          rcases Reaction.behind_cases shut (serverReaction s) with hsame | ⟨-, hpipe⟩
          · rw [hsame, serverReaction_answer]
          · -- the write has ended the process
            rw [hpipe] at hgoes
            exact absurd rfl (hgoes _)
      | .server .eof => rfl
      | .server .overrun => rfl
      | .user (.string s) =>
          obtain rfl : shut = false := hi.1
          show ofVerb confirmMsgFrom ((inputReaction s).behind false).sends = _
          rw [Reaction.behind_false, inputReaction_answer]
          rfl
      | .user .eof => rfl
      | .user .overrun => rfl

end Steps

section Runs

variable {slack : ℕ} (hslack : 5 ≤ slack) {userName : Block} {p : Program}

include hslack in
/-- **What is typed is written**: a frame for each message typed, in their order. -/
theorem writes_typed (h : Reached slack userName p) :
    ofVerb msgTo p.written = p.took.filterMap typed := by
  induction h with
  | start hinit =>
      subst hinit
      rfl
  | step _ hcan hturn ih =>
      subst hturn
      obtain ⟨i, hi, hfollows⟩ := exists_follows hslack hcan
      rw [hfollows.written, hfollows.took, ofVerb_append, ih, step_typed hi, List.filterMap_append,
        filterMap_singleton]

theorem writes_typed_talk : ∃ p, Reached 5 (textBlock neal 16) p ∧
    ofVerb msgTo p.written = [msgTo ++ encode (String.toList " bo yo\n") ++ ending] := by
  obtain ⟨p, hp, htook, -⟩ := exists_talk
  exact ⟨p, hp, (writes_typed (Nat.le_refl 5) hp).trans (htook ▸ rfl)⟩

include hslack in
/-- **What is read is answered**: as long as the client runs, a reply for each message read, in
their order. -/
theorem writes_answers (h : Reached slack userName p) (hended : p.ended = none) :
    ofVerb confirmMsgFrom p.written = p.took.filterMap answer := by
  induction h with
  | start hinit =>
      subst hinit
      rfl
  | step _ hcan hturn ih =>
      subst hturn
      obtain ⟨i, hi, hfollows⟩ := exists_follows hslack hcan
      have hruns : ∀ how, (turn slack userName _ _).stage ≠ .ended how := stage_ne_ended hended
      rw [hfollows.stage] at hruns
      rw [hfollows.written, hfollows.took, ofVerb_append, ih hcan.ended, step_answer hi hruns,
        List.filterMap_append, filterMap_singleton]

theorem writes_answers_talk : ∃ p, Reached 5 (textBlock neal 16) p ∧
    ofVerb confirmMsgFrom p.written =
      [confirmMsgFrom ++ encode (String.toList " bo") ++ ending] := by
  obtain ⟨p, hp, htook, hended⟩ := exists_talk
  exact ⟨p, hp, (writes_answers (Nat.le_refl 5) hp hended).trans (htook ▸ rfl)⟩

end Runs

end Program

end ME2U.Hw1Client
