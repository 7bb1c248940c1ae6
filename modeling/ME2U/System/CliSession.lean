import ME2U.Client.Accounts
import ME2U.Client.LoginSafety
import ME2U.Found.Simulation
import ME2U.System.Link

/-!
# A whole session of the client

`main` goes through `login_proc` and then `regular_chat`. Whatever the server sends, the user types
and the windows do, all that the client writes to the server is what these two have to say: the
login, a `MORF` for a message of the server, and a `TO`, a `LISTU` or a `BYE` for a line of the
user. The `BYE` is the last: behind `/logout`, as behind the end of the input, the socket is shut
down, and a message that is to be answered ends the client by `SIGPIPE`.

* `Utterance`: the frames of `regular_chat`; `utters_iteration`: those of one iteration.
* `Spoken`: the frames of a run of `regular_chat`, with what each of them is for.
* `CliSession.writesInOrder`: all that a session has written.
* `CliSession.silent`: behind the end of the input and behind `/logout` nothing is written, and the
  first message ends the client.
-/

namespace ME2U.System

open Client

/-! ## Frames -/

/-- A frame of `regular_chat`. -/
inductive Utterance
  /-- `MORF`, for what is behind the first word of a string of the server. -/
  | morf (text : Bytes)
  /-- `TO`, for what is behind the command in a line. -/
  | toUser (text : Bytes)
  /-- `LISTU` -/
  | listu
  /-- `BYE` -/
  | bye
  deriving DecidableEq

namespace Utterance

def frame : Utterance → Bytes
  | morf t => confirmMsgFrom ++ 32 :: (t ++ Client.ending)
  | toUser t => msgTo ++ t ++ Client.ending
  | listu => clientListUser ++ Client.ending
  | bye => clientBye ++ Client.ending

/-- What is confirmed. -/
def confirmed : Utterance → Option Bytes
  | morf t => some t
  | toUser _ | listu | bye => none

/-- Whether it is for a line of the user. -/
def typed : Utterance → Bool
  | morf _ => false
  | toUser _ | listu | bye => true

/-- It is what the line in `read_buf` asks for. -/
def IsFor (blk : Block) : Utterance → Prop
  | morf _ => False
  | toUser t => command blk = .ok (some .chat) ∧ cstr (blk.drop userChat.length) = .ok t
  | listu => command blk = .ok (some .listu)
  | bye => command blk = .ok (some .logout)

variable {u : Utterance} {x : Option Bytes} {y : Option Utterance}

/-- What a line asks for is typed, and confirms nothing. -/
theorem IsFor.typed_confirmed {blk : Block} (h : u.IsFor blk) :
    u.typed = true ∧ u.confirmed = none := by
  cases u with
  | morf t => exact h.elim
  | toUser t => exact ⟨rfl, rfl⟩
  | listu => exact ⟨rfl, rfl⟩
  | bye => exact ⟨rfl, rfl⟩

/-- Of an answer and what is typed behind it, the answer is what is confirmed, -/
theorem filterMap_confirmed (hy : ∀ u ∈ y, u.confirmed = none) :
    ((x.map morf).toList ++ y.toList).filterMap confirmed = x.toList := by
  have hother : y.toList.filterMap confirmed = [] :=
    List.filterMap_eq_nil_iff.mpr fun u hu => hy u (Option.mem_toList.mp hu)
  rw [List.filterMap_append, hother, List.append_nil]
  cases x <;> rfl

/-- and the rest is what is typed. -/
theorem filter_typed (hy : ∀ u ∈ y, u.typed = true) :
    ((x.map morf).toList ++ y.toList).filter typed = y.toList := by
  have hnone : ((x.map morf).toList).filter typed = [] := by cases x <;> rfl
  have hall : y.toList.filter typed = y.toList :=
    List.filter_eq_self.mpr fun u hu => hy u (Option.mem_toList.mp hu)
  rw [List.filter_append, hnone, hall, List.nil_append]

end Utterance

theorem sockWrites_append (ws ws' : List (Fd × Bytes)) :
    sockWrites (ws ++ ws') = sockWrites ws ++ sockWrites ws' := by
  unfold sockWrites
  rw [List.filter_append, List.map_append]

/-- From `c₀` to `c` the client has sent the frames `l`. -/
def Utters (c₀ : Process) (l : List Utterance) (c : Process) : Prop :=
  sockWrites c.wrote = sockWrites c₀.wrote ++ l.map Utterance.frame

namespace Utters

variable {c₀ c : Process} {l : List Utterance}

/-- Nothing was said. -/
theorem refl (c : Process) : Utters c [] c := by simp [Utters]

/-- A frame to the server is one utterance more. -/
theorem sock (h : Utters c₀ l c) (x : Utterance) :
    Utters c₀ (l ++ [x]) { c with wrote := c.wrote ++ [(.sock, x.frame)] } := by
  unfold Utters at h ⊢
  rw [sockWrites_append, h, List.map_append, List.append_assoc]
  rfl

/-- What is written elsewhere is not sent. -/
theorem elsewhere (h : Utters c₀ l c) {fd : Fd} (hfd : fd ≠ .sock) (bs : Bytes) :
    Utters c₀ l { c with wrote := c.wrote ++ [(fd, bs)] } := by
  have hnone : sockWrites [(fd, bs)] = [] := by simp [sockWrites, hfd]
  unfold Utters at h ⊢
  rw [sockWrites_append, h, hnone, List.append_nil]

end Utters

/-- Output elsewhere says nothing to the server. -/
theorem stable_utters (c₀ : Process) (l : List Utterance) : Stable (Utters c₀ l) where
  wrote := fun _ _ bs hfd h => h.elsewhere hfd.ne_sock bs
  addUser := fun _ _ _ h => h
  confirm := fun _ _ h => h

/-! ## Behind `shutdown` -/

section Shut

variable {α : Type} {m : Chat α} {c : Process}

/-- Nothing for the server is among it. -/
theorem sockWrites_eq_nil {ws : List (Fd × Bytes)} (h : (.sock : Fd) ∉ ws.map Prod.fst) :
    sockWrites ws = [] := by
  unfold sockWrites
  rw [List.map_eq_nil_iff, List.filter_eq_nil_iff]
  intro x hx
  simp only [decide_eq_true_eq]
  rintro hsock
  exact h (List.mem_map.mpr ⟨x, hx, hsock⟩)

/-- Nothing gets to a socket that is shut down. -/
theorem sockWrites_withSocket_true (h : ∃ ws, (m.run c).2.wrote = c.wrote ++ ws) :
    sockWrites ((withSocket true m).run c).2.wrote = sockWrites c.wrote := by
  obtain ⟨ws, hws⟩ := h
  unfold withSocket
  dsimp only
  split_ifs with hsock
  · -- what is left is what was written before the socket
    have hbefore : (.sock : Fd) ∉ (ws.takeWhile fun x => !decide (x.1 = .sock)).map Prod.fst := by
      rintro hmem
      obtain ⟨x, hx, hfd⟩ := List.mem_map.mp hmem
      simpa [hfd] using List.mem_takeWhile_imp hx
    have htake : ws.take (ws.findIdx fun x => decide (x.1 = .sock)) =
        ws.takeWhile fun x => !decide (x.1 = .sock) := by
      rw [List.takeWhile_eq_take_findIdx_not]
      simp
    unfold Process.untilSock
    dsimp only
    rw [hws, List.drop_left, List.take_length_add_append, htake, sockWrites_append,
      sockWrites_eq_nil hbefore, List.append_nil]
  · rw [eq_self, true_and, hws, List.drop_left] at hsock
    rw [hws, sockWrites_append, sockWrites_eq_nil hsock, List.append_nil]

/-- What writes to the socket where it returns does not return there. -/
theorem exists_error_withSocket_true
    (h : ∀ a c', m.run c = (.ok a, c') → ∃ ws bs, c'.wrote = c.wrote ++ ws ++ [(.sock, bs)]) :
    ∃ e, ((withSocket true m).run c).1 = .error e := by
  unfold withSocket
  dsimp only
  split_ifs with hsock
  · exact ⟨_, rfl⟩
  · rcases hrun : m.run c with ⟨e | a, c'⟩
    · exact ⟨e, rfl⟩
    · obtain ⟨ws, bs, hwrote⟩ := h a c' hrun
      refine absurd ⟨rfl, ?_⟩ hsock
      rw [hrun, hwrote, List.append_assoc, List.drop_left]
      simp

end Shut

/-! ## One read and one line -/

/-- What the handler of `FROM` gets of a string of the server, if it is run. -/
def fromText (body : Bytes) : Option Bytes :=
  if TakesFrom (firstWord body) then some (behindWord body) else none

section Handlers

variable (slack : Slack) {c₀ c : Process} {l : List Utterance}

/-- Where the line has no end the frame is not built. -/
theorem toFrame_of_cstr_error {newBuf : Block} {f : Fault} (h : cstr newBuf = .error f) :
    toFrame slack newBuf = .error f := by
  have hlen : strlen newBuf = .error f := by
    rw [strlen, h]
    rfl
  rw [toFrame, hlen]
  rfl

/-- **A line** sends at most one frame, and that is what it asks for; behind a `BYE` the input is
shut. -/
theorem utters_chatInput (h : Utters c₀ l c) (blk : Block) : ∃ y : Option Utterance,
    (∀ u ∈ y, u.IsFor blk) ∧ Utters c₀ (l ++ y.toList) ((chatInput slack blk).run c).2 ∧
      (y = some .bye → ((chatInput slack blk).run c).1 = .ok .shut) := by
  have hquiet : ∀ {c' : Process}, Utters c₀ l c' →
      Utters c₀ (l ++ (none : Option Utterance).toList) c' :=
    fun hc => by simpa using hc
  by_cases hcommand : ∃ k, command blk = .ok (some k)
  · obtain ⟨k, hk⟩ := hcommand
    rw [chatInput_of_command slack hk]
    cases k with
    | help => exact ⟨none, by simp, hquiet (h.elsewhere (by decide) _), by simp⟩
    | listu =>
        have hrun : (runCommand slack blk .listu).run c = _ :=
          run_bareRequest slack (show 0 ∉ clientListUser by decide) .again c
        rw [hrun]
        split_ifs
        · refine ⟨some .listu, ?_, h.sock .listu, by simp⟩
          rintro u ⟨⟩
          exact hk
        · exact ⟨none, by simp, hquiet h, by simp⟩
    | logout =>
        have hrun : (runCommand slack blk .logout).run c = _ :=
          run_bareRequest slack (show 0 ∉ clientBye by decide) .shut c
        rw [hrun]
        split_ifs
        · refine ⟨some .bye, ?_, h.sock .bye, fun _ => rfl⟩
          rintro u ⟨⟩
          exact hk
        · exact ⟨none, by simp, hquiet h, by simp⟩
    | chat =>
        unfold runCommand
        dsimp only
        rw [Eff.run_bind]
        have hmsg :=
          (stable_utters c₀ l).keeps_processMsg slack ((blk.drop userChat.length).drop 1) c h
        rcases hrun : (processMsg slack ((blk.drop userChat.length).drop 1)).run c with ⟨e | _, c'⟩
        · rw [hrun] at hmsg
          exact ⟨none, by simp, hquiet hmsg, by simp⟩
        rw [hrun] at hmsg
        dsimp only
        cases ht : cstr (blk.drop userChat.length) with
        | error f =>
            rw [toFrame_of_cstr_error slack ht]
            exact ⟨none, by simp, hquiet hmsg, by simp⟩
        | ok t =>
            rw [toFrame_of_cstr slack ht]
            split_ifs
            · exact ⟨none, by simp, hquiet hmsg, by simp⟩
            · refine ⟨some (.toUser t), ?_, Utters.sock hmsg (.toUser t), by simp⟩
              rintro u ⟨⟩
              exact ⟨hk, ht⟩
  · -- there is nothing to be run
    refine ⟨none, by simp, hquiet ?_, by simp⟩
    exact keeps_chatInput_of_command slack (fun k hk => absurd ⟨k, hk⟩ hcommand) c h

/-- **One read** sends at most a `MORF`, for the string that it completes. -/
theorem utters_chatRead (h : Utters c₀ l c) (b : Bytes) : ∃ x : Option Bytes,
    (∀ t ∈ x, ∃ body, ((processRead b).run c).1 = .ok (some (textBlock body 4)) ∧ 0 ∉ body ∧
      fromText body = some t) ∧
      Utters c₀ (l ++ (x.map .morf).toList) ((chatRead slack b).run c).2 := by
  have hnone {c' : Process} (hc : Utters c₀ l c') : ∃ x : Option Bytes,
      (∀ t ∈ x, ∃ body, ((processRead b).run c).1 = .ok (some (textBlock body 4)) ∧ 0 ∉ body ∧
        fromText body = some t) ∧ Utters c₀ (l ++ (x.map .morf).toList) c' :=
    ⟨none, by simp, by simpa using hc⟩
  cases hcall : readCall b c with
  | none =>
      obtain ⟨k, hread, hinput, hframe⟩ : ∃ k, chatRead slack b = processRead b >>= k ∧
          k none = pure .input ∧ ∀ blk, k (some blk) = serverFrame slack blk :=
        ⟨_, rfl, rfl, fun _ => rfl⟩
      have hbuf : Utters c₀ l ((processRead b).run c).2 := h
      refine hnone ?_
      rw [hread, Eff.run_bind]
      rcases hrun : (processRead b).run c with ⟨e | o, c'⟩
      · rwa [hrun] at hbuf
      rw [hrun] at hbuf
      cases o with
      | none =>
          dsimp only
          rw [hinput]
          exact hbuf
      | some blk =>
          dsimp only
          rw [hframe]
          refine (stable_utters c₀ l).quiet.keeps_serverFrame slack (fun msg hmsg => ?_) c' hbuf
          unfold readCall at hcall
          rw [hrun] at hcall
          simp only [hmsg] at hcall
          cases hcall
  | some x =>
      obtain ⟨msg, c₁⟩ := x
      obtain ⟨s, processStr, rfl, hstr, hfrom⟩ := exists_of_readCall hcall
      obtain ⟨body, h0, rfl⟩ := exists_of_processRead hstr
      obtain ⟨j, hj, hbody⟩ := fromMsg_textBlock body
      rw [hbody] at hfrom
      have hopt := Except.ok.inj hfrom
      split_ifs at hopt with htakes
      obtain rfl := Option.some.inj hopt
      have hbehind : 0 ∉ behindWord body := fun hmem => h0 (List.mem_of_mem_drop hmem)
      have hbuf : Utters c₀ l (c.withBuf s) := h
      rw [run_chatRead_of_readCall hcall slack, Eff.run_bind]
      have hmsg :=
        (stable_utters c₀ l).keeps_processMsg slack (textBlock (behindWord body) j) _ hbuf
      rcases hrun : (processMsg slack (textBlock (behindWord body) j)).run
        (c.withBuf s) with ⟨e | _, c'⟩
      · rw [hrun] at hmsg
        exact hnone hmsg
      rw [hrun] at hmsg
      dsimp only
      rw [Eff.run_bind, run_confirmFrom hbehind hj]
      by_cases hlen : (behindWord body).length ≤ 30
      · rw [if_pos hlen]
        refine ⟨some (behindWord body), ?_, Utters.sock hmsg (.morf _)⟩
        rintro t ⟨⟩
        exact ⟨body, by rw [hstr], h0, if_pos htakes⟩
      · rw [if_neg hlen]
        exact hnone hmsg

/-- An access to memory that has succeeded. -/
theorem exists_of_run_mem_bind {α β : Type} {x : Except Fault α} {k : α → Chat β}
    {b : β} {c' : Process}
    (h : (mem x >>= k).run c = (.ok b, c')) : ∃ a, (k a).run c = (.ok b, c') := by
  cases x with
  | error f => cases h
  | ok a => exact ⟨a, h⟩

/-- Where a message is confirmed, that is what is written. -/
theorem wrote_of_confirmFrom {sender : Block} {c' : Process} {u : Unit}
    (h : (confirmFrom sender).run c = (.ok u, c')) : ∃ bs, c'.wrote = c.wrote ++ [(.sock, bs)] := by
  unfold confirmFrom at h
  obtain ⟨_, h⟩ := exists_of_run_mem_bind h
  obtain ⟨_, h⟩ := exists_of_run_mem_bind h
  obtain ⟨_, h⟩ := exists_of_run_mem_bind h
  obtain ⟨_, h⟩ := exists_of_run_mem_bind h
  obtain ⟨bs, h⟩ := exists_of_run_mem_bind h
  exact ⟨bs, by rw [← (Prod.mk.inj h).2]⟩

/-- What was written stays, whatever is read. -/
theorem wrote_chatRead (b : Bytes) (c : Process) :
    ∃ ws, ((chatRead slack b).run c).2.wrote = c.wrote ++ ws :=
  (steady_wrote c.wrote).stable.keeps_chatRead (steady_wrote c.wrote).sock
    (steady_wrote c.wrote).buf slack b c
    ⟨[], (List.append_nil _).symm⟩

/-- A line only adds to what was written. -/
theorem wrote_chatInput (blk : Block) (c : Process) :
    ∃ ws, ((chatInput slack blk).run c).2.wrote = c.wrote ++ ws :=
  (steady_wrote c.wrote).stable.keeps_chatInput_block slack (fun _ _ c' h =>
    (steady_wrote c.wrote).sock c' _ h)
    (fun _ _ c' h => (steady_wrote c.wrote).sock c' _ h) c ⟨[], (List.append_nil _).symm⟩

end Handlers

/-! ## One iteration -/

section Iteration

variable (slack : Slack) (pid : ℕ → ℕ) (ready : List ℕ) (server typed : ReadResult) {c₀ : Process}
  {l : List Utterance} {loop : Loop}

/-- Up to the input of the user, what is sent is for the string that has come. -/
theorem utters_beforeInput (h : Utters c₀ l loop.desk.client) : ∃ x : Option Bytes,
    (∀ t ∈ x, t ∈ (heardIn ready server loop.desk.client).filterMap fromText ∧
      loop.stdineof = false) ∧
      Utters c₀ (l ++ (x.map .morf).toList)
        ((beforeInput slack pid ready server).run loop).2.desk.client := by
  have hquiet : ∀ {c : Process}, Utters c₀ l c →
      Utters c₀ (l ++ ((none : Option Bytes).map .morf).toList) c :=
    fun hc => by simpa using hc
  rw [client_beforeInput]
  unfold heardIn
  cases received ready server with
  | none => exact ⟨none, by simp, hquiet h⟩
  | some b =>
      dsimp only
      cases hshut : loop.stdineof with
      | true =>
          refine ⟨none, by simp, hquiet ?_⟩
          unfold Utters at h ⊢
          rw [sockWrites_withSocket_true (wrote_chatRead slack b _), h]
      | false =>
          obtain ⟨x, hx, hutters⟩ := utters_chatRead slack h b
          rw [run_withSocket_false]
          refine ⟨x, fun t ht => ⟨?_, rfl⟩, hutters⟩
          obtain ⟨body, hstr, h0, hfrom⟩ := hx t ht
          rcases hrun : (processRead b).run loop.desk.client with ⟨out, c'⟩
          rw [hrun] at hstr
          obtain rfl : out = _ := hstr
          dsimp only
          rw [cstr_textBlock h0 (by decide)]
          simpa [Except.toOption] using hfrom

/-- The line that is handled in an iteration, if one is. -/
def lineHandled (l : Loop) : Option Block :=
  match (beforeInput slack pid ready server).run l with
  | (.ok (.input, blk), _) => if stdinFd ∈ ready then lineIn blk typed else none
  | _ => none

/-- Behind `/logout` the input is shut. -/
theorem stdineof_inputLine {blk : Block}
    (h : ((withSocket loop.stdineof (chatInput slack blk)).run loop.desk.client).1 = .ok .shut) :
    ((inputLine slack pid blk).run loop).2.stdineof = true := by
  obtain ⟨l', hrecord, hdesk, hshut⟩ := run_record slack pid loop (inputCall blk loop.desk.client)
  unfold inputLine
  rw [Eff.run_get_bind, Eff.run_bind_ok hrecord, Eff.run_bind, run_onClient, hdesk, hshut]
  rcases hrun : (withSocket loop.stdineof (chatInput slack blk)).run
    loop.desk.client with ⟨e | next, c'⟩
  · rw [hrun] at h
    cases h
  · rw [hrun] at h
    obtain rfl : next = .shut := Except.ok.inj h
    rfl

/-- The input of the user sends what the line asks for, if there is one. -/
theorem utters_inputPart (h : Utters c₀ l loop.desk.client) (blk : Block) : ∃ y : Option Utterance,
    (∀ u ∈ y, ∃ blk' ∈ lineIn blk typed, u.IsFor blk') ∧
      Utters c₀ (l ++ y.toList) ((inputPart slack pid blk typed).run loop).2.desk.client ∧
      (y = some .bye → ((inputPart slack pid blk typed).run loop).2.stdineof = true) := by
  have hquiet : ∀ {c : Process}, Utters c₀ l c →
      Utters c₀ (l ++ (none : Option Utterance).toList) c :=
    fun hc => by simpa using hc
  have hline : ∀ blk', ∃ y : Option Utterance, (∀ u ∈ y, u.IsFor blk') ∧
      Utters c₀ (l ++ y.toList) ((inputLine slack pid blk').run loop).2.desk.client ∧
      (y = some .bye → ((inputLine slack pid blk').run loop).2.stdineof = true) := by
    intro blk'
    cases hshut : loop.stdineof with
    | true =>
        refine ⟨none, by simp, hquiet ?_, by simp⟩
        rw [run_inputLine_client, hshut]
        unfold Utters at h ⊢
        rw [sockWrites_withSocket_true (wrote_chatInput slack blk' _), h]
    | false =>
        obtain ⟨y, hy, hutters, hbye⟩ := utters_chatInput slack h blk'
        refine ⟨y, hy, ?_, fun heq => stdineof_inputLine slack pid ?_⟩
        · rwa [run_inputLine_client, hshut, run_withSocket_false]
        · rw [hshut, run_withSocket_false]
          exact hbye heq
  cases typed with
  | eof => exact ⟨none, by simp, hquiet h, by simp⟩
  | failed =>
      obtain ⟨y, hy, hrest⟩ := hline blk
      exact ⟨y, fun u hu => ⟨blk, rfl, hy u hu⟩, hrest⟩
  | data line =>
      rw [inputPart_data]
      show ∃ y : Option Utterance,
        (∀ u ∈ y, ∃ blk' ∈ (store blk 0 (cells line)).toOption, u.IsFor blk') ∧ _
      cases store blk 0 (cells line) with
      | error f => exact ⟨none, by simp, hquiet h, by simp⟩
      | ok blk' =>
          obtain ⟨y, hy, hrest⟩ := hline blk'
          exact ⟨y, fun u hu => ⟨blk', rfl, hy u hu⟩, hrest⟩

/-- From there on, what is sent is for the line that was read. -/
theorem utters_restOfIteration (hloop : loop.Sound pid) (h : Utters c₀ l loop.desk.client)
    (pipe : ℕ → ReadResult) (r : Next × Block) : ∃ y : Option Utterance,
    (∀ u ∈ y, r.1 = .input ∧ stdinFd ∈ ready ∧ ∃ blk ∈ lineIn r.2 typed, u.IsFor blk) ∧
      Utters c₀ (l ++ y.toList)
        ((restOfIteration slack pid ready typed pipe r).run loop).2.desk.client ∧
      (y = some .bye → ((restOfIteration slack pid ready typed pipe r).run loop).2.stdineof =
        true) := by
  have hnone : Utters c₀ (l ++ (none : Option Utterance).toList) loop.desk.client := by
    simpa using h
  unfold restOfIteration
  by_cases hnext : r.1 = .input
  · rw [if_neg (not_not.mpr hnext)]
    by_cases hstdin : stdinFd ∈ ready
    · rw [if_pos hstdin]
      obtain ⟨y, hy, hrest⟩ := utters_inputPart slack pid typed h r.2
      exact ⟨y, fun u hu => ⟨hnext, hstdin, hy u hu⟩, hrest⟩
    · rw [if_neg hstdin, Eff.run_get_bind]
      have hquiet :
        (anyChildrenReplied slack loop.rset pipe (List.range loop.desk.client.users.length)
          r.2).run loop.desk.client = (.ok (), loop.desk.client) :=
        run_anyChildrenReplied hloop.unwatched hloop.tidy.pipesApart pipe _ _
      rw [run_onClient_bind_ok pid loop hquiet fun _ => rfl]
      exact ⟨none, by simp, hnone, by simp⟩
  · rw [if_pos hnext]
    exact ⟨none, by simp, hnone, by simp⟩

/-- **The frames of an iteration**: at most a `MORF` for the string that has come, and at most one
for the line that was read. -/
theorem utters_iteration (hloop : loop.Sound pid) (hready : ∀ fd ∈ ready, fd < 4)
    (h : Utters c₀ l loop.desk.client) (pipe : ℕ → ReadResult) :
    ∃ (x : Option Bytes) (y : Option Utterance),
    (∀ t ∈ x, t ∈ (heardIn ready server loop.desk.client).filterMap fromText ∧
      loop.stdineof = false) ∧
      (∀ u ∈ y, stdinFd ∈ ready ∧ ∃ blk ∈ lineHandled slack pid ready server typed loop,
        u.IsFor blk) ∧
      Utters c₀ (l ++ (x.map .morf).toList ++ y.toList)
        ((iteration slack pid ready server typed pipe).run loop).2.desk.client ∧
      (y = some .bye → ((iteration slack pid ready server typed pipe).run loop).2.stdineof =
        true) := by
  obtain ⟨x, hx, hbefore⟩ := utters_beforeInput slack pid ready server h
  have hkeeps : Eff.Keeps (Loop.Sound pid) (beforeInput slack pid ready server) :=
    keeps_sound_beforeInput slack pid hready
  have hsound := hkeeps loop hloop
  rw [iteration_eq, Eff.run_bind]
  unfold lineHandled
  rcases hrun : (beforeInput slack pid ready server).run loop with ⟨e | ⟨next, blk⟩, loop₁⟩
  · rw [hrun] at hbefore
    exact ⟨x, none, hx, by simp, by simpa using hbefore, by simp⟩
  rw [hrun] at hbefore hsound
  obtain ⟨y, hy, hrest⟩ :=
    utters_restOfIteration slack pid ready typed hsound hbefore pipe (next, blk)
  refine ⟨x, y, hx, fun u hu => ?_, hrest⟩
  obtain ⟨hnext, hstdin, hline⟩ := hy u hu
  obtain rfl : next = .input := hnext
  dsimp only
  rw [if_pos hstdin]
  exact ⟨hstdin, hline⟩

end Iteration

/-! ## The end of the input -/

section Input

variable (slack : Slack) (pid : ℕ → ℕ)

/-- Where the input has ended, the terminal is not among the descriptors. -/
def InputShut (loop : Loop) : Prop := loop.stdineof = true → stdinFd ∉ loop.rset

/-- Where the terminal is ready the input is not shut. -/
theorem InputShut.stdineof_eq_false {loop : Loop} (h : InputShut loop) {ready : List ℕ}
    (hready : ∀ fd ∈ ready, fd ∈ loop.watched) (hstdin : stdinFd ∈ ready) :
    loop.stdineof = false := by
  have hwatched := hready stdinFd hstdin
  unfold Loop.watched at hwatched
  cases hshut : loop.stdineof with
  | false => rfl
  | true =>
      rw [if_pos hshut, List.nil_append, List.mem_cons] at hwatched
      rcases hwatched with hsock | hrset
      · cases hsock
      · exact absurd hrset (h hshut)

/-- What looks at the descriptors and the end of the input only. -/
def Flags (I : Loop → Prop) : Prop :=
  ∀ l l', l'.rset = l.rset → l'.stdineof = l.stdineof → I l → I l'

variable {I : Loop → Prop} (hI : Flags I)
include hI

theorem Flags.keeps_onClient {α : Type} (m : Chat α) : Eff.Keeps I (onClient pid m) :=
  fun l hl => hI l _ rfl rfl hl

theorem Flags.keeps_record (call : Option (Block × Process)) :
    Eff.Keeps I (record slack pid call) := by
  cases call with
  | none => exact .pure ()
  | some x =>
      refine .modify fun l hl => ?_
      dsimp only
      split
      · exact hI l _ rfl rfl hl
      · exact hl

theorem Flags.keeps_serverPart (server : ReadResult) :
    Eff.Keeps I (serverPart slack pid server) := by
  have hstring : ∀ b, Eff.Keeps I (serverString slack pid b) := fun b =>
    .bind .get fun _ => .bind (hI.keeps_record slack pid _) fun _ =>
      .bind (hI.keeps_onClient pid _) fun _ => .pure _
  cases server with
  | eof => exact .bind .get fun _ => .ite (fun _ => .pure _) fun _ => .stop _
  | failed => exact hstring []
  | data b => exact hstring b

/-- The rest of an iteration keeps what the end of the input does. -/
theorem Flags.keeps_restOfIteration
    (heof : ∀ l, I l → I { l with stdineof := true, rset := l.rset.filter (· ≠ stdinFd) })
    (ready : List ℕ) (typed : ReadResult) (pipe : ℕ → ReadResult) (r : Next × Block) :
    Eff.Keeps I (restOfIteration slack pid ready typed pipe r) := by
  have hshut : Eff.Keeps I shutInput := .bind (.modify heof) fun _ => .pure _
  have hline : ∀ blk, Eff.Keeps I (inputLine slack pid blk) := fun blk =>
    .bind .get fun _ => .bind (hI.keeps_record slack pid _) fun _ =>
        .bind (hI.keeps_onClient pid _) fun _ =>
      .ite (fun _ => hshut) fun _ => .pure _
  refine .ite (fun _ => .pure _) fun _ => .ite (fun _ => ?_) fun _ => ?_
  · cases typed with
    | eof => exact hshut
    | failed => exact hline r.2
    | data line => exact keeps_mem_bind fun blk _ => hline blk
  · exact .bind .get fun _ => .bind (hI.keeps_onClient pid _) fun _ => .pure _

end Input

/-- The input that has ended stays so, and the terminal stays away. -/
theorem inputShut_iteration {slack : Slack} {pid : ℕ → ℕ} {loop : Loop}
    (h : InputShut loop) {ready : List ℕ}
    (hready : ∀ fd ∈ ready, fd ∈ loop.watched) (server typed : ReadResult) (pipe : ℕ → ReadResult) :
    InputShut ((iteration slack pid ready server typed pipe).run loop).2 ∧ (loop.stdineof = true →
      ((iteration slack pid ready server typed pipe).run loop).2.stdineof = true) := by
  let I (l : Loop) : Prop := InputShut l ∧ (loop.stdineof = true → l.stdineof = true)
  have hI : Flags I := by
    rintro l l' hrset hstdineof ⟨hshut, hstays⟩
    unfold InputShut at hshut
    refine ⟨?_, ?_⟩
    · unfold InputShut
      rwa [hrset, hstdineof]
    · rwa [hstdineof]
  have heof : ∀ l, I l → I { l with stdineof := true, rset := l.rset.filter (· ≠ stdinFd) } :=
    fun l hl => ⟨fun _ => by simp, fun _ => rfl⟩
  have hstart : I { loop with rset := ready } := by
    refine ⟨fun hshut hmem => ?_, fun hstdineof => hstdineof⟩
    have hwatched := hready stdinFd hmem
    unfold Loop.watched at hwatched
    rw [if_pos hshut, List.nil_append, List.mem_cons] at hwatched
    rcases hwatched with hsock | hrset
    · cases hsock
    · exact h hshut hrset
  have hrest : ∀ r, Eff.Keeps I (restOfIteration slack pid ready typed pipe r) :=
    hI.keeps_restOfIteration slack pid heof ready typed pipe
  have hparts : I ((iteration slack pid ready server typed pipe).run loop).2 := by
    have hset : I ((Eff.modify fun l : Loop => { l with rset := ready } : LoopM Unit).run loop).2 :=
      hstart
    refine Eff.Keeps.bind_of_run hset fun _ => ?_
    exact .ite (fun _ => .bind (hI.keeps_serverPart slack pid server) hrest) fun _ => hrest _
  exact hparts

/-- A read with a message in it that is handled to the end is answered last. -/
theorem wrote_of_chatRead {b : Bytes} {c c₁ c' : Process} {msg : Block} {next : Next}
    (hcall : readCall b c = some (msg, c₁)) (slack : Slack)
    (hread : (chatRead slack b).run c = (.ok next, c')) :
    ∃ ws bs, c'.wrote = c.wrote ++ ws ++ [(.sock, bs)] := by
  rw [run_chatRead_of_readCall hcall slack] at hread
  obtain ⟨_, c₂, hprocess, hrest⟩ := Eff.run_bind_eq_ok_iff.mp hread
  obtain ⟨_, c₃, hconfirm, hdone⟩ := Eff.run_bind_eq_ok_iff.mp hrest
  obtain ⟨bs, hwrote⟩ := wrote_of_confirmFrom hconfirm
  have hkeeps := (stable_wrote c.wrote).keeps_processMsg slack msg c₁
  rw [hprocess] at hkeeps
  obtain ⟨s, -, rfl, -⟩ := exists_of_readCall hcall
  obtain ⟨ws, hws⟩ := hkeeps ⟨[], (List.append_nil _).symm⟩
  obtain rfl : c₃ = c' := (Prod.mk.inj hdone).2
  exact ⟨ws, bs, by rw [hwrote, hws]⟩

/-- A string for the handler of `FROM` ends the client where the socket is shut down: it is answered
there, or not understood. -/
theorem error_beforeInput (slack : Slack) (pid : ℕ → ℕ) {loop : Loop} (hshut : loop.stdineof = true)
    {ready : List ℕ} {server : ReadResult} {t : Bytes}
    (ht : t ∈ (heardIn ready server loop.desk.client).filterMap fromText) :
    ∃ e, ((beforeInput slack pid ready server).run loop).1 = .error e := by
  obtain ⟨body, hbody, hfrom⟩ := List.mem_filterMap.mp ht
  unfold heardIn at hbody
  cases hb : received ready server with
  | none => simp [hb] at hbody
  | some b =>
      rw [hb] at hbody
      dsimp only at hbody
      split at hbody
      · next processStr c₁ hrun =>
          -- the string is handed to `process_msg` and confirmed
          obtain ⟨body', h0, rfl⟩ := exists_of_processRead hrun
          rw [cstr_textBlock h0 (by decide)] at hbody
          obtain rfl : body = body' := by simpa [Except.toOption] using hbody
          obtain ⟨j, -, hmsg⟩ := fromMsg_textBlock body
          unfold fromText at hfrom
          split_ifs at hfrom with htakes
          rw [if_pos htakes] at hmsg
          have hcall : readCall b loop.desk.client = some (textBlock (behindWord body) j, c₁) := by
            unfold readCall
            rw [hrun]
            dsimp only
            rw [hmsg]
            rfl
          obtain ⟨e, he⟩ := exists_error_withSocket_true fun next c' => wrote_of_chatRead hcall slack
          obtain ⟨l', hstring, -⟩ := run_serverString slack pid { loop with rset := ready } b
          refine ⟨e, ?_⟩
          rw [run_beforeInput_of_received slack pid hb, hstring]
          dsimp only
          rw [hshut, he]
          rfl
      · cases hbody

/-! ## Runs of `regular_chat` -/

/-- A run of `regular_chat`, with what it has handled. -/
structure TalkRun where
  run : DeskRun
  /-- The strings that have come from the server. -/
  heard : List Bytes
  /-- `read_buf`, for each line of the user. -/
  lines : List Block

/-- The client of a run. -/
def TalkRun.client (s : TalkRun) : Process := s.run.loop.desk.client

/-- The steps of a run. -/
def TalkRun.Step (slack : Slack) (s : TalkRun) (e : DeskEvent) (s' : TalkRun) : Prop :=
  s.run.Step slack e s'.run ∧
    match e with
    | .iterates ready server typed _ pid =>
        s'.heard = s.heard ++ heardIn ready server s.client ∧
        s'.lines = s.lines ++ (lineHandled slack pid ready server typed s.run.loop).toList
    | _ => s'.heard = s.heard ∧ s'.lines = s.lines

/-- From `s` to `s'` the client has sent the frames `l`: the `MORF` are for strings that have come,
and the others for lines that were typed, both in their order and at most one for each. A `BYE` is
the last, and behind the end of the input there is none. -/
structure Spoken (s : TalkRun) (l : List Utterance) (s' : TalkRun) : Prop where
  utters : Utters s.client l s'.client
  confirmed : ∃ hs, s'.heard = s.heard ++ hs ∧
    (l.filterMap Utterance.confirmed).Sublist (hs.filterMap fromText)
  typed : ∃ blks, s'.lines = s.lines ++ blks ∧
    ∃ blks', blks'.Sublist blks ∧ List.Forall₂ Utterance.IsFor blks' (l.filter Utterance.typed)
  last : .bye ∉ l.dropLast
  shuts : .bye ∈ l → s'.run.loop.stdineof = true
  shut : s.run.loop.stdineof = true → l = [] ∧ s'.run.loop.stdineof = true

namespace Spoken

theorem refl (s : TalkRun) : Spoken s [] s where
  utters := .refl s.client
  confirmed := ⟨[], by simp, by simp⟩
  typed := ⟨[], by simp, [], by simp, .nil⟩
  last := by simp
  shuts := by simp
  shut := fun h => ⟨rfl, h⟩

/-- One talk behind the other. -/
theorem trans {s s₁ s₂ : TalkRun} {l l' : List Utterance} (h : Spoken s l s₁)
    (h' : Spoken s₁ l' s₂) :
    Spoken s (l ++ l') s₂ where
  utters := by
    have hfirst := h.utters
    have hsecond := h'.utters
    unfold Utters at hfirst hsecond ⊢
    rw [hsecond, hfirst, List.map_append, List.append_assoc]
  confirmed := by
    obtain ⟨hs, hheard, hsub⟩ := h.confirmed
    obtain ⟨hs', hheard', hsub'⟩ := h'.confirmed
    refine ⟨hs ++ hs', by rw [hheard', hheard, List.append_assoc], ?_⟩
    rw [List.filterMap_append, List.filterMap_append]
    exact hsub.append hsub'
  typed := by
    obtain ⟨blks, hlines, ms, hsub, hall⟩ := h.typed
    obtain ⟨blks', hlines', ms', hsub', hall'⟩ := h'.typed
    refine ⟨blks ++ blks', by rw [hlines', hlines, List.append_assoc], ms ++ ms',
      hsub.append hsub', ?_⟩
    rw [List.filter_append]
    exact List.rel_append hall hall'
  last := by
    by_cases hnil : l' = []
    · rw [hnil, List.append_nil]
      exact h.last
    · rw [List.dropLast_append_of_ne_nil hnil, List.mem_append, not_or]
      -- a `BYE` in the first part would have shut the input
      exact ⟨fun hbye => hnil (h'.shut (h.shuts hbye)).1, h'.last⟩
  shuts := by
    intro hbye
    rcases List.mem_append.mp hbye with hbye | hbye
    · exact (h'.shut (h.shuts hbye)).2
    · exact h'.shuts hbye
  shut := by
    intro hshut
    obtain ⟨rfl, hshut₁⟩ := h.shut hshut
    exact h'.shut hshut₁

/-- A step that leaves what was written, heard and typed. -/
theorem of_eq {s s' : TalkRun} (hwrote : s'.client.wrote = s.client.wrote)
    (hheard : s'.heard = s.heard)
    (hlines : s'.lines = s.lines) (hshut : s'.run.loop.stdineof = s.run.loop.stdineof) :
    Spoken s [] s' where
  utters := by simp [Utters, hwrote]
  confirmed := ⟨[], by simp [hheard], by simp⟩
  typed := ⟨[], by simp [hlines], [], by simp, .nil⟩
  last := by simp
  shuts := by simp
  shut := fun h => ⟨rfl, hshut.trans h⟩

end Spoken

/-- What holds of `regular_chat` in a session. -/
structure ChatHolds (s : TalkRun) : Prop where
  run : s.run.Holds
  shut : InputShut s.run.loop

/-- What is sent in an iteration. -/
theorem exists_spoken_of_iterates {slack : Slack} {s s' : TalkRun}
    (hs : ChatHolds s) {ready : List ℕ}
    {server typed : ReadResult} {pipe : ℕ → ReadResult} {pid : ℕ → ℕ}
    (hst : s.Step slack (.iterates ready server typed pipe pid) s') : ∃ l, Spoken s l s' := by
  obtain ⟨⟨-, hready, -, -, hforks, hrun⟩, hheard, hlines⟩ := hst
  have hsmall : ∀ fd ∈ ready, fd < 4 := fun fd hfd => hs.run.unwatched.watched fd (hready fd hfd)
  have hsound : s.run.loop.Sound pid :=
    ⟨hs.run.tidy, hforks.forking, hs.run.unwatched, hs.run.filings⟩
  obtain ⟨x, y, hx, hy, hutters, hbye⟩ :=
    utters_iteration slack pid ready server typed hsound hsmall (.refl s.client) pipe
  have hfor : ∀ u ∈ y, u.typed = true ∧ u.confirmed = none := by
    intro u hu
    obtain ⟨-, blk, -, hfor⟩ := hy u hu
    exact hfor.typed_confirmed
  have hclient : s'.client =
      ((iteration slack pid ready server typed pipe).run s.run.loop).2.desk.client := by
    unfold TalkRun.client
    rw [hrun]
  have hloop : s'.run.loop = ((iteration slack pid ready server typed pipe).run s.run.loop).2 := by
    rw [hrun]
  rw [List.nil_append, ← hclient] at hutters
  rw [← hloop] at hbye
  refine ⟨(x.map .morf).toList ++ y.toList, ⟨hutters, ⟨_, hheard, ?_⟩, ⟨_, hlines, ?_⟩, ?_, ?_, ?_⟩⟩
  · rw [Utterance.filterMap_confirmed fun u hu => (hfor u hu).2]
    cases x with
    | none => simp
    | some t => exact List.singleton_sublist.mpr (hx t rfl).1
  · rw [Utterance.filter_typed fun u hu => (hfor u hu).1]
    cases y with
    | none => exact ⟨[], by simp, .nil⟩
    | some u =>
        obtain ⟨-, blk, hblk, hfor⟩ := hy u rfl
        refine ⟨[blk], ?_, .cons hfor .nil⟩
        rw [Option.mem_def.mp hblk]
        exact List.Sublist.refl _
  · cases y with
    | none => cases x <;> simp
    | some u => cases x <;> simp
  · intro hmem
    apply hbye
    rcases List.mem_append.mp hmem with hmem | hmem
    · cases x <;> simp at hmem
    · exact Option.mem_toList.mp hmem
  · intro hshut
    have hnone : x = none := by
      cases x with
      | none => rfl
      | some t => exact absurd (hx t rfl).2 (by simp [hshut])
    have hnone' : y = none := by
      cases y with
      | none => rfl
      | some u => exact absurd (hs.shut.stdineof_eq_false hready (hy u rfl).1) (by simp [hshut])
    refine ⟨by rw [hnone, hnone']; rfl, ?_⟩
    rw [hloop]
    exact (inputShut_iteration hs.shut hready server typed pipe).2 hshut

/-- **What is sent in one step.** -/
theorem exists_spoken_of_step {slack : Slack} {s s' : TalkRun} {e : DeskEvent} (hs : ChatHolds s)
    (hst : s.Step slack e s') : ∃ l, Spoken s l s' := by
  cases e with
  | iterates ready server typed pipe pid => exact exists_spoken_of_iterates hs hst
  | exits n =>
      obtain ⟨hrun, hheard, hlines⟩ := hst
      refine ⟨[], .of_eq ?_ hheard hlines ?_⟩
      · unfold TalkRun.client
        rw [show s'.run = _ from hrun]
        rfl
      · rw [show s'.run = _ from hrun]
  | sigchild pids =>
      obtain ⟨⟨-, -, hok, herror⟩, hheard, hlines⟩ := hst
      refine ⟨[], .of_eq ?_ hheard hlines ?_⟩
      · unfold TalkRun.client
        cases hd : sigchildHandler s.run.loop.desk pids with
        | ok d =>
            have hkeeps : d.client.wrote = s.run.loop.desk.client.wrote :=
              keeps_sigchildHandler (I := fun c => c.wrote = s.run.loop.desk.client.wrote)
                (fun _ _ h => h) hd rfl
            rw [hok d hd]
            exact hkeeps
        | error f => rw [herror f hd]
      · cases hd : sigchildHandler s.run.loop.desk pids with
        | ok d => rw [hok d hd]
        | error f => rw [herror f hd]

/-- A step keeps it. -/
theorem ChatHolds.step {slack : Slack} {s s' : TalkRun} {e : DeskEvent} (h : ChatHolds s)
    (hst : s.Step slack e s') : ChatHolds s' := by
  refine ⟨h.run.step hst.1, ?_⟩
  cases e with
  | iterates ready server typed pipe pid =>
      obtain ⟨⟨-, hready, -, -, -, heq⟩, -⟩ := hst
      rw [heq]
      exact (inputShut_iteration h.shut hready server typed pipe).1
  | exits n =>
      obtain ⟨heq, -⟩ := hst
      rw [show s'.run = _ from heq]
      exact h.shut
  | sigchild pids =>
      obtain ⟨⟨-, -, hok, herror⟩, -⟩ := hst
      cases hd : sigchildHandler s.run.loop.desk pids with
      | ok d =>
          rw [hok d hd]
          exact h.shut
      | error f =>
          rw [herror f hd]
          exact h.shut

/-- **A run of `regular_chat`** from any state: what it sends. -/
theorem exists_spoken {slack : Slack} {s s' : TalkRun} (hs : ChatHolds s)
    (h : Reachable (· = s) (TalkRun.Step slack) s') : ChatHolds s' ∧ ∃ l, Spoken s l s' := by
  induction h with
  | start heq =>
      rw [heq]
      exact ⟨hs, [], .refl s⟩
  | @step s₁ s₂ e _ _ hst ih =>
      obtain ⟨hs₁, l, hspoken⟩ := ih
      obtain ⟨l', hspoken'⟩ := exists_spoken_of_step hs₁ hst
      exact ⟨hs₁.step hst, l ++ l', hspoken.trans hspoken'⟩

/-- Where the input has ended, a step that hears a string for the handler of `FROM` is the last. -/
theorem ended_of_step {slack : Slack} {s s' : TalkRun} {e : DeskEvent}
    (hshut : s.run.loop.stdineof = true)
    (hst : s.Step slack e s') : (s.run.ended = true → s'.run.ended = true) ∧
      ∃ hs, s'.heard = s.heard ++ hs ∧ (hs.filterMap fromText ≠ [] → s'.run.ended = true) := by
  cases e with
  | iterates ready server typed pipe pid =>
      obtain ⟨⟨hgoes, -, -, -, -, hrun⟩, hheard, -⟩ := hst
      refine ⟨fun hended => absurd hended (by simp [hgoes]), _, hheard, fun hsome => ?_⟩
      obtain ⟨t, ht⟩ := List.exists_mem_of_ne_nil _ hsome
      obtain ⟨err, herror⟩ := error_beforeInput slack pid hshut ht
      rw [hrun, iteration_eq, Eff.run_bind]
      rcases hbefore : (beforeInput slack pid ready server).run s.run.loop with ⟨out, l'⟩
      rw [hbefore] at herror
      obtain rfl : out = .error err := herror
      rfl
  | exits n =>
      obtain ⟨hrun, hheard, -⟩ := hst
      refine ⟨fun hended => ?_, [], by simp [hheard], by simp⟩
      rw [show s'.run = _ from hrun]
      exact hended
  | sigchild pids =>
      obtain ⟨⟨hgoes, -⟩, hheard, -⟩ := hst
      exact ⟨fun hended => absurd hended (by simp [hgoes]), [], by simp [hheard], by simp⟩

/-- **Behind the end of the input**, the first string for the handler of `FROM` ends a run. -/
theorem ended_of_heard {slack : Slack} {s s' : TalkRun} (hs : ChatHolds s)
    (hshut : s.run.loop.stdineof = true) (h : Reachable (· = s) (TalkRun.Step slack) s') :
    ∃ hs, s'.heard = s.heard ++ hs ∧ (hs.filterMap fromText ≠ [] → s'.run.ended = true) := by
  induction h with
  | start heq =>
      rw [heq]
      exact ⟨[], by simp, by simp⟩
  | @step s₁ s₂ e hreach _ hst ih =>
      obtain ⟨hs₁, hheard, hended⟩ := ih
      obtain ⟨-, l, hspoken⟩ := exists_spoken hs hreach
      obtain ⟨hstays, hs₂, hheard', hended'⟩ := ended_of_step (hspoken.shut hshut).2 hst
      refine ⟨hs₁ ++ hs₂, by rw [hheard', hheard, List.append_assoc], fun hsome => ?_⟩
      rw [List.filterMap_append, ne_eq, List.append_eq_nil_iff, not_and_or] at hsome
      rcases hsome with hsome | hsome
      · exact hstays (hended hsome)
      · exact hended' hsome

/-! ## Sessions -/

/-- A client from the start of `login_proc`. -/
structure CliSession where
  login : LoginRun
  /-- `regular_chat`, when it has been called. -/
  chat : Option TalkRun

/-- What happens in a session. -/
inductive CliEvent
  /-- `login_proc` goes on. -/
  | logsIn (e : LoginEvent)
  /-- `login_proc` returns, and `regular_chat` is called. -/
  | enters
  /-- `regular_chat` goes on. -/
  | chats (e : DeskEvent)

/-- The start of `regular_chat`, with what `full_buf` holds. -/
def entered (buf : RecvBuf) : TalkRun :=
  ⟨⟨⟨⟨Process.initial.withBuf buf, [], []⟩, [], false, []⟩, false⟩, [], []⟩

namespace CliSession

/-- The steps of a session.
Source: `client.c` `main` (lines 57–60) -/
def Step (userName : Block) (slack : Slack) (s : CliSession) : CliEvent → CliSession → Prop
  | .logsIn e, s' => s.chat = none ∧ s.login.Step userName e s'.login ∧ s'.chat = none
  | .enters, s' => s.chat = none ∧ s.login.halted = none ∧ s.login.login.state = .done ∧
      s' = { s with chat := some (entered s.login.login.buf) }
  | .chats e, s' => ∃ r r', s.chat = some r ∧ r.Step slack e r' ∧ s' = { s with chat := some r' }

/-- The client is at the start of its login. -/
def Initial (s : CliSession) : Prop := s.login.Initial ∧ s.chat = none

/-- The sessions of a user name, with any server, user and windows. -/
abbrev Reached (userName : Block) (slack : Slack) : CliSession → Prop :=
  Reachable Initial (Step userName slack)

/-- All that was written to the server. -/
def written (s : CliSession) : List Bytes :=
  s.login.login.sent ++ (s.chat.map fun r => sockWrites r.client.wrote).getD []

variable {name : Bytes} {userName : Block} {slack : Slack}

/-- What holds in a session. -/
structure Holds (name : Bytes) (slack : Slack) (s : CliSession) : Prop where
  login : s.login.Holds name
  chat : ∀ r ∈ s.chat, s.login.halted = none ∧ s.login.login.state = .done ∧
    ∃ buf, Reachable (· = entered buf) (TalkRun.Step slack) r

/-- **One step.** -/
theorem Holds.step (h0 : 0 ∉ name) (hname : currentUserName name = .ok userName) {s s' : CliSession}
    {e : CliEvent} (h : s.Holds name slack) (hst : s.Step userName slack e s') :
    s'.Holds name slack := by
  cases e with
  | logsIn e =>
      obtain ⟨-, hlogin, hnone⟩ := hst
      exact ⟨h.login.step h0 hname hlogin, by simp [hnone]⟩
  | enters =>
      obtain ⟨-, hhalted, hdone, rfl⟩ := hst
      refine ⟨h.login, ?_⟩
      rintro r ⟨⟩
      exact ⟨hhalted, hdone, s.login.login.buf, .start rfl⟩
  | chats e =>
      obtain ⟨r, r', hr, hstep, rfl⟩ := hst
      refine ⟨h.login, ?_⟩
      rintro r₁ ⟨⟩
      obtain ⟨hhalted, hdone, buf, hreach⟩ := h.chat r hr
      exact ⟨hhalted, hdone, buf, hreach.next hstep⟩

/-- The invariant holds in every run. -/
theorem Reached.holds (h0 : 0 ∉ name) (hname : currentUserName name = .ok userName) {s : CliSession}
    (h : Reached userName slack s) : s.Holds name slack := by
  refine h.invariant (I := Holds name slack) ?_ fun s₁ e s₂ hs _ hst => hs.step h0 hname hst
  rintro s₀ ⟨hlogin, hchat⟩
  exact ⟨hlogin.holds, by simp [hchat]⟩

theorem chatHolds_entered (buf : RecvBuf) : ChatHolds (entered buf) where
  run := DeskRun.holds_withBuf buf
  shut := fun hstdineof => by cases hstdineof

/-- All that a session has written: the login, in order and once each, with nothing behind it before
the login is through; and then `MORF` for strings that have come and `TO`, `LISTU` and `BYE` for
lines that were typed, both in their order and at most one for each. A `BYE` is the last, and the
input is shut behind it. -/
structure Orderly (name : Bytes) (s : CliSession) : Prop where
  login : s.login.Safe name
  loggingIn : s.chat = none → s.written <+: [loginMsg, iamFrame name]
  chatting : ∀ r ∈ s.chat, s.login.login.state = .done ∧
    ∃ l : List Utterance, s.written = loginMsg :: iamFrame name :: l.map Utterance.frame ∧
      (l.filterMap Utterance.confirmed).Sublist (r.heard.filterMap fromText) ∧
      (∃ blks, blks.Sublist r.lines ∧
        List.Forall₂ Utterance.IsFor blks (l.filter Utterance.typed)) ∧
      .bye ∉ l.dropLast ∧ (.bye ∈ l → r.run.loop.stdineof = true)

/-- Once `regular_chat` is called, a session is that. -/
theorem exists_chat {s s' : CliSession} {r : TalkRun} (hr : s.chat = some r)
    (h : Reachable (· = s) (Step userName slack) s') :
    s'.login = s.login ∧ ∃ r', s'.chat = some r' ∧ Reachable (· = r) (TalkRun.Step slack) r' := by
  induction h with
  | start heq =>
      rw [heq]
      exact ⟨rfl, r, hr, .start rfl⟩
  | @step s₁ s₂ e _ _ hst ih =>
      obtain ⟨hlogin, r₁, hr₁, hreach⟩ := ih
      cases e with
      | logsIn e =>
          obtain ⟨hnone, -⟩ := hst
          rw [hr₁] at hnone
          cases hnone
      | enters =>
          obtain ⟨hnone, -⟩ := hst
          rw [hr₁] at hnone
          cases hnone
      | chats e =>
          obtain ⟨r₂, r₃, hr₂, hstep, rfl⟩ := hst
          obtain rfl : r₁ = r₂ := Option.some.inj (hr₁.symm.trans hr₂)
          exact ⟨hlogin, r₃, rfl, hreach.next hstep⟩

/-- **Behind the end of the input** and behind `/logout` a client writes nothing more, and the first
string for the handler of `FROM` that comes ends it. -/
theorem silent (h0 : 0 ∉ name) (hname : currentUserName name = .ok userName) {s s' : CliSession}
    (h : Reached userName slack s) {r : TalkRun} (hr : s.chat = some r)
    (hshut : r.run.loop.stdineof = true) (h' : Reachable (· = s) (Step userName slack) s') :
    s'.written = s.written ∧ ∃ (r' : TalkRun) (hs : List Bytes), s'.chat = some r' ∧
      r'.heard = r.heard ++ hs ∧ (hs.filterMap fromText ≠ [] → r'.run.ended = true) := by
  obtain ⟨-, -, buf, hreach⟩ := (h.holds h0 hname).chat r hr
  obtain ⟨hholds, -⟩ := exists_spoken (chatHolds_entered buf) hreach
  obtain ⟨hlogin, r', hr', hreach'⟩ := exists_chat hr h'
  obtain ⟨-, l, hspoken⟩ := exists_spoken hholds hreach'
  obtain ⟨rfl, -⟩ := hspoken.shut hshut
  obtain ⟨hs, hheard, hended⟩ := ended_of_heard hholds hshut hreach'
  refine ⟨?_, r', hs, hr', hheard, hended⟩
  have hutters := hspoken.utters
  unfold Utters at hutters
  unfold written
  rw [hlogin, hr, hr', Option.map_some, Option.map_some, Option.getD_some,
    Option.getD_some, hutters, List.map_nil, List.append_nil]

/-! ## A session -/

/-- A frame that is read as it was sent, over a text that is not longer. -/
theorem reads_frame {s : LoginRun} (h : LoginRun.Reached userName s) (hwait : s.Waits)
    (hbuf : s.login.buf = .of []) {r body : Bytes}
    (hread : s.login.readBuf = readBuf r) (hr : IsRead r)
    (hbody : IsRead (body ++ Client.ending)) (hlen : r.length ≤ (body ++ Client.ending).length)
    {c : Login} (hrun : (loginString userName (body ++ Client.ending).length (textBlock body 4)).run
      { s.login with buf := .of [], readBuf := readBuf (body ++ Client.ending) } = (.ok (), c)) :
    ∃ s' : LoginRun, LoginRun.Reached userName s' ∧ s'.login = c ∧ s'.halted = none := by
  have hover : laidOver (body ++ Client.ending) r = body ++ Client.ending :=
    laidOver_of_length_le hlen
  have hpos : 4 ≤ (body ++ Client.ending).length := by
    rw [List.length_append]
    exact Nat.le_add_left 4 _
  have hsmall : (body ++ Client.ending).length < maxline := hbody.2
  have hlook : Manageable ([] ++ laidOver (body ++ Client.ending) r) := by
    rw [hover]
    refine ⟨hpos, ?_⟩
    unfold maxline at hsmall
    unfold bufLimit
    rw [List.nil_append]
    omega
  have hwhole := run_loginRead_some hbuf hread (by simp) (by decide) hbody hr hlook
    (by rw [hover, List.nil_append]) userName
  rw [hover, hrun] at hwhole
  have hfits : (ReadResult.data (body ++ Client.ending)).Fits :=
    ⟨List.ne_nil_of_length_pos (by omega), hsmall.le⟩
  have hstep : s.Step userName (.reads (.data (body ++ Client.ending)))
      (s.read userName (.data (body ++ Client.ending))) := ⟨hwait, hfits, rfl⟩
  refine ⟨s.read userName (.data (body ++ Client.ending)), h.next hstep, ?_, ?_⟩
  · exact congrArg Prod.snd hwhole
  · exact congrArg (fun out => haltedBy out.1) hwhole

/-- The login of a name, when `U2EM`, `MAI` and `MOTD` are read as they were sent. -/
theorem exists_loggedIn (h0 : 0 ∉ name) (hlen : name.length ≤ 19) : ∃ s : LoginRun,
    LoginRun.Reached (textBlock name (20 - name.length)) s ∧ s.halted = none ∧
      s.login.state = .done ∧
      s.login.buf = .of [] ∧ s.login.sent = [loginMsg, iamFrame name] := by
  have hbegun : LoginRun.Reached (textBlock name (20 - name.length))
      ⟨⟨.of [], readBuf [], .hello, [loginMsg], []⟩, [], none⟩ :=
    Reachable.next (.start rfl) (e := .begins) ⟨rfl, rfl, rfl⟩
  obtain ⟨s₁, hs₁, hlogin₁, hgo₁⟩ := reads_frame hbegun ⟨rfl, by decide, by decide⟩ rfl rfl
    ⟨by decide, by decide⟩ ⟨by decide, by decide⟩ (by decide) (run_loginString_hello rfl h0 hlen _)
  obtain ⟨s₂, hs₂, hlogin₂, hgo₂⟩ := reads_frame hs₁ ⟨hgo₁, by simp [hlogin₁], by simp [hlogin₁]⟩
    (by rw [hlogin₁]) (by rw [hlogin₁]) ⟨by decide, by decide⟩ ⟨by decide, by decide⟩ (by decide)
    (run_loginString_approval (by rw [hlogin₁]) _ _)
  obtain ⟨printed, hmotd⟩ := @run_loginString_motd
    { s₂.login with buf := .of [], readBuf := readBuf (serverMotd ++ Client.ending) }
      (by rw [hlogin₂]) []
    (by simp) (textBlock name (20 - name.length)) (serverMotd ++ Client.ending).length
  obtain ⟨s₃, hs₃, hlogin₃, hgo₃⟩ := reads_frame hs₂ ⟨hgo₂, by simp [hlogin₂], by simp [hlogin₂]⟩
    (by rw [hlogin₂]) (by rw [hlogin₂]) ⟨by decide, by decide⟩
      ⟨by decide, by decide⟩ (by decide) hmotd
  exact ⟨s₃, hs₃, hgo₃, by rw [hlogin₃], by rw [hlogin₃], by simp [hlogin₃, hlogin₂, hlogin₁]⟩

section Bare

variable (slack : Slack) (l : Loop) (line : Bytes) {str : Bytes} {k : UserCommand}

/-- A line with a request without arguments sends that; `/logout` shuts the input behind it. -/
theorem run_iteration_bareRequest (pid : ℕ → ℕ) (hopen : l.stdineof = false)
    (hlen : line.length ≤ maxline)
    (hk : command (readBuf line) = .ok (some k)) (hstr : k.bareRequest = some str)
    (hroom : 5 ≤ slack (cells str)) (server : ReadResult) (pipe : ℕ → ReadResult) :
    (iteration slack pid [stdinFd] server (.data line) pipe).run l =
      (.ok .again, { l with
        desk := l.desk.withClient pid { l.desk.client with
          wrote := l.desk.client.wrote ++ [(.sock, str ++ Client.ending)] }
        rset := if k = .logout then [] else [stdinFd]
        stdineof := decide (k = .logout) }) := by
  have hstore : store (readBuf []) 0 (cells line) = .ok (readBuf line) := by
    have hsplit : readBuf [] = [] ++ (zeros line.length ++ zeros (maxline - line.length)) := by
      rw [List.nil_append, ← zeros_add, Nat.add_sub_cancel' hlen]
      rfl
    have hfits : (cells line).length = (zeros line.length).length := by simp [zeros]
    have hempty : 0 = ([] : Block).length := rfl
    rw [hsplit, store_append hempty hfits]
    rfl
  have hcall : inputCall (readBuf line) l.desk.client = none := by
    unfold inputCall chatMsg
    rw [hk]
    cases k <;> first | rfl | cases hstr
  have hsent : (chatInput slack (readBuf line)).run l.desk.client =
      (.ok (if k = .logout then .shut else .again), { l.desk.client with
        wrote := l.desk.client.wrote ++ [(.sock, str ++ Client.ending)] }) := by
    rw [chatInput_of_command slack hk]
    cases k with
    | help => cases hstr
    | chat => cases hstr
    | listu =>
        obtain rfl : clientListUser = str := Option.some.inj hstr
        exact (run_bareRequest slack (by decide) .again _).trans (if_pos hroom)
    | logout =>
        obtain rfl : clientBye = str := Option.some.inj hstr
        exact (run_bareRequest slack (by decide) .shut _).trans (if_pos hroom)
  rw [iteration_eq]
  unfold beforeInput
  rw [Eff.bind_assoc, Eff.run_modify_bind, if_neg (by decide), Eff.run_pure_bind]
  unfold restOfIteration
  rw [if_neg (by simp), if_pos (by simp), inputPart_data, hstore, run_mem_ok_bind]
  unfold inputLine
  rw [Eff.run_get_bind, hcall]
  show (onClient pid (chatInput slack (readBuf line)) >>= _).run _ = _
  obtain ⟨desk, rset, stdineof, filings⟩ := l
  obtain rfl : stdineof = false := hopen
  rw [run_onClient_bind_ok pid ⟨desk, [stdinFd], false, filings⟩ hsent fun hshut => by cases hshut]
  cases k <;> rfl

end Bare

/-- The state after an iteration. -/
private def next (pid : ℕ → ℕ) (s : TalkRun) (ready : List ℕ) (server typed : ReadResult) :
    TalkRun where
  run := ⟨((iteration roundedUp pid ready server typed fun _ => .failed).run s.run.loop).2,
    endsLoop ((iteration roundedUp pid ready server typed fun _ => .failed).run s.run.loop).1⟩
  heard := s.heard ++ heardIn ready server s.client
  lines := s.lines ++ (lineHandled roundedUp pid ready server typed s.run.loop).toList

/-- While the client runs every iteration that is possible is a step. -/
private theorem step_next (pid : ℕ → ℕ) (s : TalkRun) (ready : List ℕ) {server typed : ReadResult}
    (hended : s.run.ended = false) (hready : ∀ fd ∈ ready, fd ∈ s.run.loop.watched)
    (hserver : server.Fits) (htyped : typed.Fits) (hforks : Forks pid s.run.loop.desk) :
    s.Step roundedUp (.iterates ready server typed (fun _ => .failed) pid)
    (next pid s ready server typed) :=
  ⟨⟨hended, hready, hserver, htyped, hforks, rfl⟩, rfl, rfl⟩

/-- A client without users that has logged in. -/
private def idleRun : TalkRun := entered (.of [])

/-- The user asks for the list, -/
private def asked : TalkRun := next id idleRun [stdinFd] .failed (.data (userListu ++ [10]))
/-- somebody writes, -/
private def told : TalkRun := next id asked [sockFd] (.data (messageFrame [97] [104])) .failed
/-- and the user leaves; -/
private def leaving : TalkRun := next (· + 100) told [stdinFd] .failed (.data (userLogout ++ [10]))
/-- then somebody writes again. -/
private def gone : TalkRun :=
  next (· + 100) leaving [sockFd] (.data (messageFrame [97] [105])) .failed

private theorem run_asked : asked.run = ⟨⟨⟨{ Process.initial with
    wrote := [(.sock, clientListUser ++ Client.ending)] }, [], []⟩, [stdinFd],
    false, []⟩, false⟩ := by
  have hcommand : command (readBuf (userListu ++ [10])) = .ok (some .listu) := by decide
  have hrun :=
    run_iteration_bareRequest roundedUp idleRun.run.loop (userListu ++ [10]) id rfl (by decide)
    hcommand rfl (by decide) .failed fun _ => .failed
  unfold asked next
  rw [hrun]
  rfl

/-- The user for whom there is a window then. -/
private def other : UserStruct := ⟨[97], 0, 0, 4, 5, true⟩

private theorem run_told : ∃ filings, told.run = ⟨⟨⟨⟨.of [], [other], 6,
    [(.sock, Utterance.listu.frame), (.pipe 5, [104]),
      (.sock, (Utterance.morf [97, 32, 104]).frame)]⟩,
      [5], [⟨5, [97], 4, 5, false, false⟩]⟩, [sockFd], false, filings⟩, false⟩ := by
  have hover : ¬Overread roundedUp [97] asked.client.users := by
    rw [TalkRun.client, run_asked]
    decide
  obtain ⟨u, hu, -, hrun⟩ := run_iteration_messageFrame (t := [104]) hover
    (by rw [TalkRun.client, run_asked]; rfl)
    (by rw [TalkRun.client, run_asked]; simp [Process.initial]) (by decide)
      (by decide) (by decide) id
    asked.run.loop rfl (by rw [run_asked]) .failed fun _ => .failed
  obtain rfl : u = other := by
    rw [TalkRun.client, run_asked] at hu
    simpa [Process.withUser, Process.addUser, Process.initial, other] using hu
  unfold told next
  rw [hrun, TalkRun.client, run_asked]
  exact ⟨_, rfl⟩

private theorem run_leaving : ∃ filings, leaving.run = ⟨⟨⟨⟨.of [], [other], 6,
    [(.sock, Utterance.listu.frame), (.pipe 5, [104]),
      (.sock, (Utterance.morf [97, 32, 104]).frame), (.sock, Utterance.bye.frame)]⟩,
      [5], [⟨5, [97], 4, 5, false, false⟩]⟩, [], true, filings⟩, false⟩ := by
  obtain ⟨filings, htold⟩ := run_told
  have hcommand : command (readBuf (userLogout ++ [10])) = .ok (some .logout) := by decide
  have hrun := run_iteration_bareRequest roundedUp told.run.loop (userLogout ++ [10]) (· + 100)
    (by rw [htold]) (by decide) hcommand rfl (by decide) .failed fun _ => .failed
  unfold leaving next
  rw [hrun, htold]
  exact ⟨_, rfl⟩

/-- The session up to `/logout`, and what is left of it. -/
private theorem exists_sessions : ∃ login : LoginRun, login.login.sent = [loginMsg, iamFrame [98]] ∧
    Reached (textBlock [98] 19) roundedUp ⟨login, some leaving⟩ ∧
      Reachable (· = ⟨login, some leaving⟩) (Step (textBlock [98] 19) roundedUp)
      ⟨login, some gone⟩ := by
  obtain ⟨login, hlogin, hgo, hdone, hbuf, hsent⟩ := @exists_loggedIn [98] (by decide) (by decide)
  have hstart : Reached (textBlock [98] 19) roundedUp ⟨login, none⟩ := by
    clear hgo hdone hbuf hsent
    induction hlogin with
    | start hinit => exact .start ⟨hinit, rfl⟩
    | @step s s' e _ _ hst ih => exact ih.next (e := .logsIn e) ⟨rfl, hst, rfl⟩
  have hentered : Reached (textBlock [98] 19) roundedUp ⟨login, some idleRun⟩ := by
    refine hstart.next (e := .enters) ⟨rfl, hgo, hdone, ?_⟩
    rw [hbuf]
    rfl
  have hchats : ∀ {s s' : TalkRun} {e : DeskEvent}, s.Step roundedUp e s' →
      Step (textBlock [98] 19) roundedUp ⟨login, some s⟩ (.chats e) ⟨login, some s'⟩ :=
    fun h => ⟨_, _, rfl, h, rfl⟩
  have hnever : ReadResult.failed.Fits := trivial
  have hline : ∀ b : Bytes, b ≠ [] → b.length ≤ maxline → (ReadResult.data b).Fits :=
    fun _ hne hlen => ⟨hne, hlen⟩
  obtain ⟨filings, htold⟩ := run_told
  obtain ⟨filings', hleaving⟩ := run_leaving
  have hapart : Forks (· + 100) told.run.loop.desk :=
    ⟨fun _ _ h => Nat.add_right_cancel h, by rw [htold]; simp⟩
  have hasks := hentered.next (hchats (step_next id idleRun [stdinFd] rfl
    (by decide) hnever (hline (userListu ++ [10]) (by decide) (by decide))
      ⟨fun _ _ h => h, by simp [idleRun, entered]⟩))
  have htells := hasks.next (hchats (step_next id asked [sockFd] (by rw [run_asked])
    (by rw [run_asked]; decide) (hline (messageFrame [97] [104]) (by decide) (by decide)) hnever
    ⟨fun _ _ h => h, by rw [run_asked]; simp⟩))
  have hleaves :=
    htells.next (hchats (step_next (· + 100) told [stdinFd] (by rw [htold])
      (by rw [htold]; simp [Loop.watched]) hnever (hline (userLogout ++ [10]) (by decide)
        (by decide)) hapart))
  refine ⟨login, hsent, hleaves,
    Reachable.next (.start rfl) (hchats (step_next _ _ _ (by rw [hleaving])
    (by rw [hleaving]; simp [Loop.watched]) (hline (messageFrame [97] [105]) (by decide)
      (by decide)) hnever ?_))⟩
  exact ⟨fun _ _ h => Nat.add_right_cancel h, by rw [hleaving]; simp⟩

/-- Behind `/logout` a message ends it, and is not answered. -/
theorem silent_leaving :
    ∃ (s s' : CliSession) (r r' : TalkRun), s.chat = some r ∧ s'.chat = some r' ∧
    r.run.ended = false ∧ r'.heard ≠ r.heard ∧ s'.written = s.written ∧ r'.run.ended = true := by
  obtain ⟨login, hsent, hleaving, hgone⟩ := exists_sessions
  obtain ⟨filings, hrun⟩ := run_leaving
  obtain ⟨hwritten, r', hs, hr', hheard, hended⟩ :=
    silent (by decide) (currentUserName_eq (by decide)) hleaving
    rfl (by rw [hrun]) hgone
  obtain rfl : gone = r' := Option.some.inj hr'
  have hhears : heardIn [sockFd] (.data (messageFrame [97] [105])) leaving.client =
      [msgFrom ++ 32 :: ([97] ++ 32 :: [105])] := by
    have hread := run_processRead_messageFrame (c := leaving.client) (w := [97]) (t := [105])
      (by rw [TalkRun.client, hrun]) (by decide) (by decide) (by decide)
    have hreceived : received [sockFd] (.data (messageFrame [97] [105])) =
      some (messageFrame [97] [105]) := rfl
    have hbody : 0 ∉ msgFrom ++ 32 :: ([97] ++ 32 :: [105]) := by decide
    unfold heardIn
    rw [hreceived]
    dsimp only
    rw [hread]
    dsimp only
    rw [cstr_textBlock hbody (by decide)]
    rfl
  obtain rfl : heardIn [sockFd] (.data (messageFrame [97] [105])) leaving.client = hs :=
    List.append_cancel_left hheard
  rw [hhears] at hheard hended
  refine ⟨_, _, leaving, gone, rfl, rfl, by rw [hrun], ?_, hwritten, hended (by decide)⟩
  rw [hheard]
  simp

end CliSession

end ME2U.System
