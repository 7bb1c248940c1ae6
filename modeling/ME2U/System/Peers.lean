import ME2U.Client.Errors
import ME2U.Found.Runs
import ME2U.Server.Civil
import ME2U.System.Link

/-!
# What others can do to a client

A client in `regular_chat`, the server, and any number of other connections, which send requests of
the protocol in any order. What the client writes reaches its handler one write at a time, and what
is sent to it it reads one frame at a time. It may be stopped in `error` in one way: somebody
confirms a message that the client has not sent, under a name that it does not know.

* `Peers.Step`: the others, the handler of the client, and the client go on.
* `Peers.Sound`: the invariant; what is on its way to the client, and what of a frame is pending.
* `Peers.error_asked`: a client that stopped in `error` got such a confirmation.
-/

namespace ME2U.System

open Client
open Server (Conn Listener ListenerEvent Exchange Talk Spaceless Proper OwnRequest
  IsLogin loginReplies requestString)

/-! ## The steps -/

/-- Where a client stands. -/
inductive Status
  /-- It is in the loop of `regular_chat`. -/
  | chatting
  | returned
  | halted (e : Halt)

/-- A client and the server. -/
structure Peers where
  server : Listener
  client : Process
  status : Status
  /-- What the client wrote and its handler has not received. -/
  toServer : List Bytes
  /-- What was sent to the client and it has not read. -/
  toClient : List Bytes

/-- What happens to the two. -/
inductive PeerEvent
  /-- Something happens on another connection. -/
  | others (e : ListenerEvent)
  /-- The handler of the client receives a write and handles it. -/
  | serve
  /-- The user types a command. -/
  | types (cmd : Command)
  /-- The client reads a frame. -/
  | reads
  /-- The client finds its connection closed. -/
  | ends

namespace Peers

/-- After a step of the server. -/
def ofServer (s : Peers) (me : Conn) (t : Listener) : Peers :=
  { s with
    server := t
    toClient := s.toClient ++ delivered me (newly s.server.world.sent t.world.sent) }

/-- After the client has run. -/
def ofClient (s : Peers) (r : Except Halt Next × Process) : Peers :=
  { s with
    client := r.2
    status := match r.1 with
      | .ok .returned => .returned
      | .ok _ => .chatting
      | .error e => .halted e
    toServer := s.toServer ++ sockWrites (newly s.client.wrote r.2.wrote) }

/-- What others do: they connect and leave, and send proper requests. -/
def Other (me : Conn) : ListenerEvent → Prop
  | .accepts _ _ => True
  | .receives conn data =>
      conn ≠ me ∧ (data = [] ∨ ∃ q, Proper q ∧ requestString data = some q.render)
  | .breaks conn => conn ≠ me

/-- The message of `regular_chat` for the end of the stream.
Source: `client.c` `regular_chat` (line 226) -/
def terminated : String := "chat procedure: server terminated prematurely"

/-- The steps. A write of the client is received whole, and a frame is read whole, in fewer than
`MAXLINE` bytes. A line that is typed is read over what was read from the server in the same turn of
the loop, which is behind the line then. -/
inductive Step (slack : Slack) (me : Conn) : Peers → PeerEvent → Peers → Prop
  | others {s e t} :
  Other me e → Listener.Step s.server e t → Step slack me s (.others e) (s.ofServer me t)
  | serve {s data rest t} : s.toServer = data :: rest →
      Listener.Step s.server (.receives me data) t →
      Step slack me s .serve (Peers.ofServer { s with toServer := rest } me t)
  | types {s cmd old blk} : s.status = .chatting → cmd.WellFormed → old.length < maxline →
      store (readBuf old) 0 (cells cmd.line) = .ok blk →
      Step slack me s (.types cmd) (s.ofClient ((chatInput slack blk).run s.client))
  | reads {s f rest} : s.status = .chatting → s.toClient = f :: rest → f.length < maxline →
      Step slack me s .reads
        (Peers.ofClient { s with toClient := rest } ((chatRead slack f).run s.client))
  | ends {s} : s.status = .chatting → s.toClient = [] → s.server.world.isOpen me = false →
      Step slack me s .ends
        { s with status := .halted (.error terminated) }

/-- Before the chat, the client sends the requests of its login. -/
def LogsIn (me : Conn) (name : Str) (_ : Listener) (e : ListenerEvent) : Prop :=
  Other me e ∨ ∃ data newStr, e = .receives me data ∧
    requestString data = some newStr ∧ IsLogin name newStr

/-- The client has logged in under the name and enters `regular_chat`. Frames may be on their way to
it, but not those that it has waited for. -/
structure Initial (me : Conn) (name : Str) (s : Peers) : Prop where
  server : Reaches Listener.Initial (LogsIn me name) Listener.Step s.server
  spaceless : Spaceless name
  entry : ∃ addr, ⟨name, me, addr⟩ ∈ s.server.world.users
  serving : s.server.stop me = .waiting
  client : s.client = Process.initial
  status : s.status = .chatting
  toServer : s.toServer = []
  toClient : ∀ f ∈ s.toClient, f ∈ delivered me s.server.world.sent ∧
    f ∉ loginReplies.map fun body => encode (Server.ending body)

/-- Another connection asked for a confirmation to the client, under a name that the client has no
user of. -/
def Asked (s : Peers) (me : Conn) (name : Str) : Prop :=
  ∃ e ∈ s.server.history, ∃ x, e.Asks me name x ∧ ∀ u ∈ s.client.users, u.username ≠ encode x

end Peers

/-! ## What the client sees -/

section Texts

variable (me : Conn) (name : Str) (history : List Exchange)

/-- What may be pending: the beginning of a frame in which the client came upon a NUL. -/
inductive Opening : Bytes → Prop
  | message {t : Bytes} : Opening (msgFrom ++ 32 :: t)
  | notice {verb t : Bytes} : verb ∈ [serverListUser, noUsr, serverByeBrod] →
      Opening (verb ++ 32 :: t)
  | confirmation {e : Exchange} {x : Str} {t : Bytes} : e ∈ history →
      e.Asks me name x → 0 ∈ encode x →
      Opening (confirmMsgTo ++ 32 :: t)

/-- What may be handed out. A message has its sender before a space. -/
inductive Handed : Bytes → Prop
  | message {t : Bytes} : 32 ∈ t → Handed (msgFrom ++ 32 :: t)
  | notice {verb t : Bytes} : verb ∈ [serverListUser, noUsr, serverByeBrod] →
      Handed (verb ++ 32 :: t)
  | confirmation {e : Exchange} {x : Str} {t : Bytes} : e ∈ history → e.Asks me name x →
      t = encode x ∨ 0 ∈ encode x → Handed (confirmMsgTo ++ 32 :: t)

variable {me name history}

/-- The bytes of a frame. -/
theorem encode_ending_verb (verb t : Str) :
    encode (Server.ending (verb ++ ' ' :: t)) = encode verb ++ 32 ::
    (encode t ++ Client.ending) := by
  rw [Server.ending, encode_append, encode_append, encode_space_cons, ending_eq]
  simp

/-- The client sees the verb, and what is behind it up to the first NUL. -/
theorem seen_frame {verb : Str} (hverb : 0 ∉ encode verb ++ [32]) (t : Str) :
    seen (encode (Server.ending (verb ++ ' ' :: t))) = encode verb ++ 32 ::
    seen (encode t ++ Client.ending) := by
  have hsplit : encode (Server.ending (verb ++ ' ' :: t)) =
      (encode verb ++ [32]) ++ (encode t ++ Client.ending) := by
    rw [encode_ending_verb]
    simp
  rw [hsplit, seen_append hverb]
  simp

/-- Every frame of a conversation begins with a verb and a space. -/
theorem exists_seen_of_talk {frame : Str} (h : Talk me name history frame) :
    ∃ verb t, seen (encode (Server.ending frame)) = verb ++ 32 :: t := by
  cases h <;> exact ⟨_, _, seen_frame (by decide) _⟩

/-- Of a message whose ending the client sees, it sees the space behind the sender. -/
theorem space_mem_of_seen_message {s msg : Str} (hs : Spaceless s) {t : Bytes}
    (h : seen (encode (s ++ ' ' :: msg) ++ Client.ending) = t ++ Client.ending) : 32 ∈ t := by
  have hsplit : encode (s ++ ' ' :: msg) ++ Client.ending =
      encode s ++ (32 :: (encode msg ++ Client.ending)) := by
    rw [encode_append, encode_space_cons]
    simp
  rw [hsplit] at h
  by_cases h0 : 0 ∈ encode s
  · -- then the ending would be in the name
    exfalso
    have hcr : 13 ∈ encode s := by
      have hsub : seen (encode s ++ (32 :: (encode msg ++ Client.ending))) <+: encode s := by
        obtain ⟨x, y, hxy, hx⟩ := List.eq_append_cons_of_mem h0
        rw [hxy, List.append_assoc, seen_append hx]
        exact ⟨0 :: y, by simp [seen]⟩
      rw [h] at hsub
      exact hsub.subset (List.mem_append_right _ (by decide))
    exact hs.notMem rfl (cr_mem_encode.mp hcr)
  · rw [seen_append h0] at h
    have hspace : seen (32 :: (encode msg ++ Client.ending)) =
      32 :: seen (encode msg ++ Client.ending) := rfl
    rw [hspace] at h
    obtain ⟨c, -, rfl⟩ := exists_of_append_space_eq h
    simp

/-- A frame of a conversation, with nothing pending before it. -/
theorem opening_or_handed_first {body : Bytes} {frame : Str} (h : Talk me name history frame) :
    (¬Client.ending <:+ seen (encode (Server.ending frame)) →
        Opening me name history (seen (encode (Server.ending frame)))) ∧
      (seen (encode (Server.ending frame)) = body ++ Client.ending →
        Handed me name history body) := by
  cases h with
  | @fromUser s msg hs =>
      rw [seen_frame (by decide)]
      refine ⟨fun _ => .message, fun hbody => ?_⟩
      obtain ⟨c, hc, rfl⟩ := exists_of_append_space_eq hbody
      exact .message (space_mem_of_seen_message hs hc)
  | utsil | edne | uoff =>
      rw [seen_frame (by decide)]
      refine ⟨fun _ => .notice (by decide), fun hbody => ?_⟩
      obtain ⟨c, -, rfl⟩ := exists_of_append_space_eq hbody
      exact .notice (by decide)
  | @ot e x he hasks =>
      rw [seen_frame (by decide)]
      by_cases h0 : 0 ∈ encode x
      · refine ⟨fun _ => .confirmation he hasks h0, fun hbody => ?_⟩
        obtain ⟨c, -, rfl⟩ := exists_of_append_space_eq hbody
        exact .confirmation he hasks (.inr h0)
      · rw [seen_of_notMem (zero_notMem_frame h0)]
        refine ⟨fun hopen => absurd ?_ hopen, fun hbody => ?_⟩
        · exact ⟨encode Verb.ot ++ 32 :: encode x, by simp⟩
        · obtain ⟨c, hc, rfl⟩ := exists_of_append_space_eq hbody
          exact .confirmation he hasks (.inl (List.append_cancel_right hc).symm)

/-- **What a frame of a conversation leaves pending**, or what is handed out, behind what is
pending. -/
theorem opening_or_handed {p body : Bytes} {frame : Str} (hp : p = [] ∨ Opening me name history p)
    (h : Talk me name history frame) :
    (¬Client.ending <:+ p ++ seen (encode (Server.ending frame)) →
        Opening me name history (p ++ seen (encode (Server.ending frame)))) ∧
      (p ++ seen (encode (Server.ending frame)) = body ++ Client.ending →
        Handed me name history body) := by
  rcases hp with rfl | hp
  · exact opening_or_handed_first h
  obtain ⟨verb, u, hseen⟩ := exists_seen_of_talk h
  rw [hseen]
  cases hp with
  | @message t =>
      rw [List.append_assoc, List.cons_append]
      refine ⟨fun _ => .message, fun hbody => ?_⟩
      obtain ⟨c, hc, rfl⟩ := exists_of_append_space_eq hbody
      rw [← List.append_assoc] at hc
      obtain ⟨d, -, rfl⟩ := exists_of_append_space_eq hc
      exact .message (by simp)
  | notice hverb =>
      rw [List.append_assoc, List.cons_append]
      refine ⟨fun _ => .notice hverb, fun hbody => ?_⟩
      obtain ⟨c, -, rfl⟩ := exists_of_append_space_eq hbody
      exact .notice hverb
  | confirmation he hasks h0 =>
      rw [List.append_assoc, List.cons_append]
      refine ⟨fun _ => .confirmation he hasks h0, fun hbody => ?_⟩
      obtain ⟨c, -, rfl⟩ := exists_of_append_space_eq hbody
      exact .confirmation he hasks (.inr h0)

end Texts

/-! ## What the client does -/

/-- The frames that the client writes: `LISTU`, messages, and the confirmations of messages, which
have a space behind the name. -/
inductive OwnFrame : Bytes → Prop
  | listu : OwnFrame (clientListUser ++ Client.ending)
  | toUser {t : Bytes} : OwnFrame (msgTo ++ t ++ Client.ending)
  | morf {t : Bytes} : 32 ∈ t → OwnFrame (confirmMsgFrom ++ 32 :: (t ++ Client.ending))

/-- What the server makes of it. -/
theorem OwnFrame.requestString {f : Bytes} (h : OwnFrame f) {newStr : Str}
    (hstr : requestString f = some newStr) :
    newStr = Verb.listu ∨ newStr.take 2 = Verb.toUser ∨
      newStr.take 4 = Verb.morf ∧ ' ' ∈ newStr.drop 5 := by
  obtain ⟨u, hdec, rfl⟩ := Option.map_eq_some_iff.mp hstr
  have hbytes := decode_eq_some_iff.mp hdec
  cases h with
  | listu =>
      refine .inl ?_
      have hwire : clientListUser ++ Client.ending = wire Verb.listu := by
        rw [wire_eq, ending_eq]
        rfl
      rw [hwire, Server.requestString_wire_of_notMem (show '\r' ∉ Verb.listu by decide)] at hstr
      exact (Option.some.inj hstr).symm
  | toUser =>
      rw [List.append_assoc] at hbytes
      obtain ⟨v, rfl, -⟩ := exists_of_encode_append_eq (s := Verb.toUser) hbytes
      refine .inr (.inl ?_)
      rw [Server.ending, terminatingSequence, deleteAll_append_of_notMem (by decide)]
      rfl
  | @morf t hspace =>
      have hsplit : encode (Verb.morf ++ [' ']) ++ (t ++ Client.ending) = encode u := by
        rw [← hbytes, encode_append]
        simp [confirmMsgFrom, encode_space_cons]
      obtain ⟨v, rfl, hv⟩ := exists_of_encode_append_eq hsplit
      have hmem : ' ' ∈ v := by
        rw [← space_mem_encode, ← hv]
        exact List.mem_append_left _ hspace
      have hkept := mem_deleteAll terminatingSequence_ne_nil space_notMem_terminatingSequence hmem
      refine .inr (.inr ?_)
      rw [Server.ending, terminatingSequence, deleteAll_append_of_notMem (by decide),
        ← terminatingSequence]
      exact ⟨rfl, hkept⟩

/-- From `c₀` on, a client wrote only such frames to the socket; its buffer is as it was, and
usernames hold no NUL. -/
structure Answers (c₀ c : Process) : Prop where
  buf : c.buf = c₀.buf
  wrote : ∃ ws, c.wrote = c₀.wrote ++ ws ∧ ∀ f ∈ sockWrites ws, OwnFrame f
  names : ∀ n ∈ c.users.map UserStruct.username, 0 ∉ n

section Clients

variable {c₀ c : Process}

/-- Nothing was written. -/
theorem Answers.refl (h : ∀ n ∈ c₀.users.map UserStruct.username, 0 ∉ n) : Answers c₀ c₀ :=
  ⟨rfl, ⟨[], by simp, by simp [sockWrites]⟩, h⟩

/-- A frame of its own more. -/
theorem Answers.write (h : Answers c₀ c) {fd : Fd} {bs : Bytes} (hbs : fd = .sock → OwnFrame bs) :
    Answers c₀ { c with wrote := c.wrote ++ [(fd, bs)] } :=
  ⟨h.buf, exists_wrote_append h.wrote hbs, h.names⟩

/-- No output of the client is anything else. -/
theorem stable_answers : Stable (Answers c₀) where
  wrote := fun _ _ _ hfd h => h.write fun heq => absurd heq hfd.ne_sock
  addUser := by
    intro c w hw h
    refine ⟨h.buf, h.wrote, ?_⟩
    unfold Process.addUser
    rw [List.map_append, List.forall_mem_append]
    exact ⟨h.names, by simpa using hw.zero_notMem⟩
  confirm := by
    intro c i h
    refine ⟨h.buf, h.wrote, ?_⟩
    rw [map_modify_of_eq (by simp)]
    exact h.names

/-- A line makes the client write a `TO` frame or `LISTU` at most. -/
theorem answers_chatInput (slack : Slack) {blk : Block}
    (hstay : (command blk).toOption.join ≠ some .logout)
    (h : ∀ n ∈ c₀.users.map UserStruct.username, 0 ∉ n) :
    Answers c₀ ((chatInput slack blk).run c₀).2 := by
  refine stable_answers.keeps_chatInput_block slack (fun str hstr c hc => ?_)
    (fun newStr hstr c hc => ?_)
    c₀ (.refl h)
  · obtain rfl := eq_of_mem_bareRequest hstay hstr
    exact hc.write fun _ => .listu
  · obtain ⟨t, rfl⟩ := exists_of_toFrame hstr
    exact hc.write fun _ => .toUser

/-- No command is `/logout`. -/
theorem command_line_ne_logout (cmd : Command) (rest : Block) :
    (command (cells cmd.line ++ rest)).toOption.join ≠ some .logout := by
  rw [cmd.command_line rest]
  intro h
  cases cmd <;> cases h

/-- A handler that never calls `error`. -/
theorem answers_of_noError {m : Chat Next} (h : Answers c₀ c₀) (hkeeps : Eff.Keeps (Answers c₀) m)
    (hstops : Eff.StopsOnly NoError m) {p : String → Prop} :
    Answers c₀ (m.run c₀).2 ∧ ∀ msg, (m.run c₀).1 = .error (.error msg) → p msg :=
  ⟨hkeeps c₀ h, fun msg herr => absurd herr (ne_error_of_stopsOnly hstops c₀ msg)⟩

/-- A confirmation changes a count at most, and ends in `error` only for a name that the client has
no user of. -/
theorem answers_confirmation (slack : Slack) {t : Bytes} (ht : 0 ∉ t)
    (h : ∀ n ∈ c₀.users.map UserStruct.username, 0 ∉ n) :
    Answers c₀ ((serverFrame slack (textBlock (confirmMsgTo ++ 32 :: t) 4)).run c₀).2 ∧
      ∀ msg, ((serverFrame slack (textBlock (confirmMsgTo ++ 32 :: t) 4)).run c₀).1 =
          .error (.error msg) → msg = neverExisted ∧
        ∀ u ∈ ((serverFrame slack (textBlock (confirmMsgTo ++ 32 :: t) 4)).run c₀).2.users,
          u.username ≠ t := by
  have hnames : ∀ u ∈ c₀.users, 0 ∉ u.username := by simpa using h
  rw [run_serverFrame_ot]
  refine ⟨Eff.Keeps.bind (stable_answers.quiet.keeps_msgConfirmed slack _)
    (fun _ => .pure _) c₀ (.refl h), fun msg herr => ?_⟩
  rw [Eff.run_bind] at herr ⊢
  rcases hrun : (msgConfirmed slack (textBlock t 4)).run c₀ with ⟨stop | u, c⟩
  · rw [hrun] at herr
    obtain rfl := Except.error.inj herr
    obtain ⟨hmsg, hsame, hunknown⟩ := error_of_run_msgConfirmed hnames ht (congrArg Prod.fst hrun)
    rw [hrun] at hsame
    obtain rfl : c = c₀ := hsame
    exact ⟨hmsg, hunknown⟩
  · rw [hrun] at herr
    cases herr

variable {me : Conn} {name : Str} {history : List Exchange}

/-- **What is handed out** is answered at most, and ends in `error` only as a confirmation for an
unknown name. -/
theorem answers_serverFrame (slack : Slack) {body : Bytes} (hbody : Handed me name history body)
    (h0 : 0 ∉ body) (h : ∀ n ∈ c₀.users.map UserStruct.username, 0 ∉ n) :
    Answers c₀ ((serverFrame slack (textBlock body 4)).run c₀).2 ∧
      ∀ msg, ((serverFrame slack (textBlock body 4)).run c₀).1 = .error (.error msg) →
        msg = neverExisted ∧ ∃ e ∈ history, ∃ x, e.Asks me name x ∧
          ∀ u ∈ ((serverFrame slack (textBlock body 4)).run c₀).2.users, u.username ≠ encode x := by
  have hrefl := Answers.refl h
  cases hbody with
  | @message t hspace =>
      have ht : 0 ∉ t := fun hmem => h0 (List.mem_append_right _ (List.mem_cons_of_mem _ hmem))
      rw [run_serverFrame_from]
      apply answers_of_noError hrefl
      · refine .bind (stable_answers.keeps_processMsg slack _) fun _ => .bind ?_ fun _ => .pure _
        intro c hc
        rw [run_confirmFrom ht (by decide)]
        split_ifs
        · exact hc.write fun _ => .morf hspace
        · exact hc
      · exact .bind (stopsOnly_processMsg slack _) fun _ => .bind (stopsOnly_confirmFrom _) fun _ =>
          .pure _
  | @notice verb t hverb =>
      rcases List.mem_cons.mp hverb with rfl | hverb
      · rw [run_serverFrame_utsil]
        apply answers_of_noError hrefl
        · exact .bind (stable_answers.quiet.printing.keeps_listUsers _) fun _ => .pure _
        · exact .bind (stopsOnly_listUsers _) fun _ => .pure _
      rcases List.mem_cons.mp hverb with rfl | hverb
      · rw [run_serverFrame_edne]
        apply answers_of_noError hrefl
        · exact .bind (stable_answers.quiet.printing.keeps_noUserExists _) fun _ => .pure _
        · exact .bind (stopsOnly_noUserExists _) fun _ => .pure _
      · obtain rfl := List.mem_singleton.mp hverb
        rw [run_serverFrame_uoff]
        apply answers_of_noError hrefl
        · exact .bind (stable_answers.quiet.printing.keeps_someoneExited _) fun _ => .pure _
        · exact .bind (stopsOnly_someoneExited _) fun _ => .pure _
  | @confirmation e x t he hasks htext =>
      have ht : 0 ∉ t := fun hmem => h0 (List.mem_append_right _ (List.mem_cons_of_mem _ hmem))
      obtain ⟨hanswers, herror⟩ := answers_confirmation slack ht h
      refine ⟨hanswers, fun msg hmsg => ?_⟩
      obtain ⟨hnever, hunknown⟩ := herror msg hmsg
      refine ⟨hnever, e, he, x, hasks, fun v hv heq => ?_⟩
      -- a name with a NUL in it is nobody's
      rcases htext with rfl | hzero
      · exact hunknown v hv heq
      · exact hanswers.names _ (List.mem_map_of_mem hv) (heq ▸ hzero)

end Clients

namespace Peers

/-! ## The invariant -/

/-- What every run keeps. -/
structure Sound (me : Conn) (name : Str) (s : Peers) : Prop where
  server : Reaches Listener.Initial (Listener.Civil me name) Listener.Step s.server
  member : ∃ addr, (me, addr) ∈ s.server.accepted
  toServer : ∀ f ∈ s.toServer, OwnFrame f
  toClient : ∀ f ∈ s.toClient, ∃ body, f = encode (Server.ending body) ∧
    Talk me name s.server.history body
  names : ∀ n ∈ s.client.users.map UserStruct.username, 0 ∉ n
  pending : s.status = .chatting → ∃ p, s.client.buf = .of p ∧ 0 ∉ p ∧ p.length < bufLimit ∧
    (p = [] ∨ Opening me name s.server.history p)
  error : ∀ msg, s.status = .halted (.error msg) → msg = neverExisted ∧ s.Asked me name

section Steps

variable {slack : Slack} {me : Conn} {name : Str} {s : Peers}

/-- What is left to happen to a client that has stopped leaves the reason for it alone. -/
theorem Asked.mono {s t : Peers} (h : s.Asked me name)
    (hhistory : s.server.history ⊆ t.server.history)
    (hclient : t.client = s.client) : t.Asked me name := by
  obtain ⟨e, he, x, hasks, hunknown⟩ := h
  exact ⟨e, hhistory he, x, hasks, hclient ▸ hunknown⟩

/-- An opening stays one as the history grows. -/
theorem Opening.mono {history history' : List Exchange} {p : Bytes} (h : Opening me name history p)
    (hsub : history ⊆ history') : Opening me name history' p := by
  cases h with
  | message => exact .message
  | notice hverb => exact .notice hverb
  | confirmation he hasks h0 => exact .confirmation (hsub he) hasks h0

/-- What others do is civil towards the user. -/
theorem Other.civil {e : ListenerEvent} (h : Other me e) (t : Listener) : t.Civil me name e := by
  cases e with
  | accepts => trivial
  | breaks => exact h
  | receives conn data => exact ⟨fun hconn => absurd hconn h.1, fun _ => h.2⟩

/-- The requests of a login are requests of the client. -/
theorem LogsIn.civil {t : Listener} {e : ListenerEvent} (h : LogsIn me name t e) :
    t.Civil me name e := by
  rcases h with h | ⟨data, newStr, rfl, hstr, hlogin⟩
  · exact h.civil t
  · refine ⟨fun _ newStr' hstr' => ?_, fun hne => absurd rfl hne⟩
    obtain rfl := Option.some.inj (hstr.symm.trans hstr')
    rcases hlogin with rfl | rfl
    · exact .me2u
    · exact .iam

/-- A write of the client is neither a login request nor anything the server does not know. -/
theorem OwnFrame.ownRequest {f : Bytes} (h : OwnFrame f) {newStr : Str}
    (hstr : requestString f = some newStr) : OwnRequest name newStr ∧ ¬IsLogin name newStr := by
  rcases h.requestString hstr with rfl | hto | ⟨hmorf, hspace⟩
  · refine ⟨.listu, ?_⟩
    rintro (hlogin | hlogin) <;> cases hlogin
  · refine ⟨.toUser hto, ?_⟩
    rintro (rfl | rfl) <;> cases hto
  · refine ⟨.morf hmorf hspace, ?_⟩
    rintro (rfl | rfl) <;> cases hmorf

/-- The invariant holds at the start. -/
theorem Initial.sound (h : s.Initial me name) : s.Sound me name := by
  have hrun : Reaches Listener.Initial (Listener.Civil me name) Listener.Step s.server :=
    h.server.weaken fun _ _ => LogsIn.civil
  have hund := Listener.undisturbed h.spaceless hrun
  refine ⟨hrun, ?_, ?_, ?_, ?_, ?_, ?_⟩
  · obtain ⟨addr, hentry⟩ := h.entry
    exact ⟨addr, hund.coherent.entries _ hentry⟩
  · simp [h.toServer]
  · intro f hf
    obtain ⟨hsent, hnew⟩ := h.toClient f hf
    obtain ⟨x, hx, rfl⟩ := List.mem_map.mp hsent
    obtain ⟨hx, hconn⟩ := List.mem_filter.mp hx
    simp only [Bool.and_eq_true, beq_iff_eq] at hconn
    obtain ⟨e, he, hxe⟩ := hund.sent x hx
    obtain ⟨body, hbody, ⟨-, -, hreply⟩ | htalk⟩ := (hund.handled e he).talk he hxe hconn.1
    · exact absurd (List.mem_map.mpr ⟨body, hreply, hbody.symm⟩) hnew
    · exact ⟨body, hbody, htalk⟩
  · simp [h.client, Process.initial]
  · exact fun _ => ⟨[], by rw [h.client]; rfl, by simp, by decide, .inl rfl⟩
  · intro msg hmsg
    rw [h.status] at hmsg
    cases hmsg

/-- **A step of the server.** What it sends to the client is talk, if the client is not logging
in. -/
theorem Sound.ofServer (h : s.Sound me name) (hname : Spaceless name)
    {e : ListenerEvent} {t : Listener}
    (hcivil : s.server.Civil me name e) (hstep : Listener.Step s.server e t)
    (hlogin : ∀ data newStr, e = .receives me data → requestString data = some newStr →
      ¬IsLogin name newStr) : (s.ofServer me t).Sound me name := by
  have hrun := h.server.step hcivil hstep
  have hund := Listener.undisturbed hname hrun
  obtain ⟨haccepted, hquiet⟩ := hstep.quiet_or_serve
  have hhistory : s.server.history ⊆ t.history := by
    rcases hquiet with ⟨-, hsame⟩ | ⟨conn, addr, data, newStr, -, -, rfl⟩
    · rw [hsame]
      exact List.Subset.refl _
    · exact List.subset_append_left _ _
  obtain ⟨addr, hmember⟩ := h.member
  refine ⟨hrun, ⟨addr, haccepted hmember⟩, h.toServer, ?_, h.names, ?_, ?_⟩
  · intro f hf
    rcases List.mem_append.mp hf with hf | hf
    · obtain ⟨body, hbody, htalk⟩ := h.toClient f hf
      exact ⟨body, hbody, htalk.mono hhistory⟩
    · obtain ⟨x, hx, rfl⟩ := List.mem_map.mp hf
      obtain ⟨hx, hconn⟩ := List.mem_filter.mp hx
      simp only [Bool.and_eq_true, beq_iff_eq] at hconn
      rcases hquiet with ⟨hsent, -⟩ | ⟨conn, addr, data, newStr, rfl, hstr, rfl⟩
      · rw [hsent, newly_self] at hx
        cases hx
      · have hmem : ⟨conn, addr, newStr, s.server.world⟩ ∈
            (s.server.serve conn addr newStr).history :=
          List.mem_append_right _ List.mem_cons_self
        obtain ⟨body, hbody, ⟨rfl, hlog, -⟩ | htalk⟩ := (hund.handled _ hmem).talk hmem hx hconn.1
        · exact absurd hlog (hlogin data newStr rfl hstr)
        · exact ⟨body, hbody, htalk⟩
  · intro hstatus
    obtain ⟨p, hbuf, h0, hlim, hp⟩ := h.pending hstatus
    exact ⟨p, hbuf, h0, hlim, hp.imp_right fun hp => Opening.mono hp hhistory⟩
  · exact fun msg hmsg => (h.error msg hmsg).imp_right fun hasked => Asked.mono hasked hhistory rfl

/-- **A step of the client.** -/
theorem Sound.ofClient (h : s.Sound me name) {c₀ : Process} {r : Except Halt Next × Process}
    (hwrote : c₀.wrote = s.client.wrote) (hanswers : Answers c₀ r.2)
    (hpending : ∀ next, r.1 = .ok next → ∃ p, r.2.buf = .of p ∧ 0 ∉ p ∧ p.length < bufLimit ∧
      (p = [] ∨ Opening me name s.server.history p))
    (herror : ∀ msg, r.1 = .error (.error msg) → msg = neverExisted ∧ ∃ e ∈ s.server.history, ∃ x,
      e.Asks me name x ∧ ∀ u ∈ r.2.users, u.username ≠ encode x) :
      (s.ofClient r).Sound me name := by
  refine ⟨h.server, h.member, ?_, h.toClient, hanswers.names, ?_, ?_⟩
  · intro f hf
    rcases List.mem_append.mp hf with hf | hf
    · exact h.toServer f hf
    · obtain ⟨ws, hws, hall⟩ := hanswers.wrote
      rw [hws, hwrote, newly_append] at hf
      exact hall f hf
  · rcases r with ⟨stop | next, c⟩
    · exact fun hstatus => by cases hstatus
    · exact fun _ => hpending next rfl
  · rcases r with ⟨stop | next, c⟩
    · intro msg hmsg
      obtain rfl := Status.halted.inj hmsg
      exact herror msg rfl
    · intro msg hmsg
      cases next <;> cases hmsg

/-- **A frame that is read** leaves its beginning pending, or is handed out. -/
theorem Sound.reads (h : s.Sound me name) {frame : Str}
    (htalk : Talk me name s.server.history frame)
    (hlen : (encode (Server.ending frame)).length < maxline) (hstatus : s.status = .chatting) :
    (s.ofClient ((chatRead slack (encode (Server.ending frame))).run s.client)).Sound me name := by
  obtain ⟨p, hbuf, h0, hlim, hp⟩ := h.pending hstatus
  rcases chatRead_cases slack h0 hlim hlen hbuf with ⟨e, b, hrun⟩ | ⟨hshort, hopen, hrun⟩ |
      ⟨body, hbody, hrun⟩
  · -- a fault in the buffer
    have hanswers : Answers (s.client.withBuf b) (s.client.withBuf b) := .refl h.names
    rw [hrun]
    have hwrote : (s.client.withBuf b).wrote = s.client.wrote := rfl
    refine h.ofClient hwrote hanswers (fun next hnext => ?_) fun msg hmsg => ?_
    · cases hnext
    · cases hmsg
  · have hanswers : Answers (s.client.withBuf (.of (p ++ seen (encode (Server.ending frame)))))
        (s.client.withBuf (.of (p ++ seen (encode (Server.ending frame))))) := .refl h.names
    rw [hrun]
    have hwrote : (s.client.withBuf (.of (p ++ seen (encode (Server.ending frame))))).wrote =
      s.client.wrote := rfl
    refine h.ofClient hwrote hanswers (fun next _ => ?_) fun msg hmsg => ?_
    · have hopening : Opening me name s.server.history (p ++ seen (encode (Server.ending frame))) :=
        (@opening_or_handed _ _ _ _ [] _ hp htalk).1 hopen
      refine ⟨_, rfl, ?_, hshort, .inr hopening⟩
      exact List.not_mem_append h0 (zero_notMem_seen _)
    · cases hmsg
  · -- a frame is complete
    rw [hrun]
    have hbody0 : 0 ∉ body := by
      intro hmem
      have hall : 0 ∈ p ++ seen (encode (Server.ending frame)) :=
        hbody ▸ List.mem_append_left _ hmem
      exact (List.not_mem_append h0 (zero_notMem_seen _)) hall
    have hhanded := (opening_or_handed hp htalk).2 hbody
    have hnames : ∀ n ∈ (s.client.withBuf (.of [])).users.map UserStruct.username, 0 ∉ n := h.names
    obtain ⟨hanswers, herror⟩ := answers_serverFrame slack hhanded hbody0 hnames
    have hwrote : (s.client.withBuf (.of [])).wrote = s.client.wrote := rfl
    exact h.ofClient hwrote hanswers (fun _ _ => ⟨[], hanswers.buf, by simp, by decide, .inl rfl⟩)
      herror

/-- The invariant is kept by every step. -/
theorem Sound.step (h : s.Sound me name) (hname : Spaceless name) {e : PeerEvent} {t : Peers}
    (hstep : Step slack me s e t) : t.Sound me name := by
  cases hstep with
  | others hother hserver =>
      refine h.ofServer hname (hother.civil s.server) hserver fun data newStr heq _ => ?_
      subst heq
      exact absurd rfl hother.1
  | @serve data rest t hwritten hserver =>
      have hown : OwnFrame data := h.toServer data (by simp [hwritten])
      have hrest : Sound me name { s with toServer := rest } :=
        ⟨h.server, h.member, fun f hf => h.toServer f (by simp [hwritten, hf]), h.toClient, h.names,
          h.pending, h.error⟩
      have hcivil : s.server.Civil me name (.receives me data) :=
        ⟨fun _ newStr hstr => (OwnFrame.ownRequest hown hstr).1, fun hne => absurd rfl hne⟩
      refine hrest.ofServer hname hcivil hserver fun data' newStr heq hstr => ?_
      obtain rfl := (ListenerEvent.receives.inj heq).2
      exact (OwnFrame.ownRequest hown hstr).2
  | @types cmd old blk hstatus hcmd _ hstore =>
      obtain ⟨rest, rfl⟩ := exists_of_store_zero hstore
      have hanswers := answers_chatInput slack (command_line_ne_logout cmd rest) h.names
      refine h.ofClient rfl hanswers (fun next _ => ?_) fun msg herr => ?_
      · obtain ⟨p, hbuf, hp⟩ := h.pending hstatus
        exact ⟨p, hanswers.buf.trans hbuf, hp⟩
      · exact absurd herr (ne_error_of_stopsOnly (stopsOnly_chatInput slack cmd rest) _ msg)
  | @reads f rest hstatus hsent hlen =>
      have hrest : Sound me name { s with toClient := rest } :=
        ⟨h.server, h.member, h.toServer, fun f hf => h.toClient f (by simp [hsent, hf]), h.names,
          h.pending, h.error⟩
      obtain ⟨frame, rfl, htalk⟩ := h.toClient f (by simp [hsent])
      exact hrest.reads htalk hlen hstatus
  | ends hstatus _ hclosed =>
      -- the connection of the client is never closed
      obtain ⟨addr, hmember⟩ := h.member
      have hopen := (Listener.undisturbed hname h.server).isOpen _ hmember rfl
      rw [hclosed] at hopen
      cases hopen

end Steps

/-- A client that has logged in as `a`, where there is another one, `b`. -/
private def loggedIn : Peers := ⟨Listener.twoClients, Process.initial, .chatting, [], []⟩

/-- The confirmation of a message to `b`. -/
private def otB : Bytes := confirmMsgTo ++ [32, 98] ++ Client.ending

/-- `b` has sent a `MORF` that names `a`. -/
private def confirmed : Peers :=
  loggedIn.ofServer 0 (Listener.twoClients.serve 1 1 (Request.morf ['a']).render)

/-- The client of `a` has read what it was sent. -/
private def stopped : Peers :=
  Peers.ofClient { confirmed with toClient := [] }
    ((chatRead (fun _ => 1) otB).run confirmed.client)

end Peers

end ME2U.System
