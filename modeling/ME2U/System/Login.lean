import ME2U.System.Session

/-!
# The login, client and server together

`MAI` and `MOTD` are sent one behind the other. So the client can get an end of the first and a
beginning of the second in one read, which it takes for another reply and stops.

* `Phase.step`: in what order a login proceeds, when its reads are careful.
* `login_completes`: such a login gets through.
-/

namespace ME2U.System

open Client
open Server (Conn Addr)

/-! ## The phases of a login -/

/-- The client is in a state, with a text pending and a text in `read_buf`. -/
structure At (s : Session) (st : LoginState) (p r : Bytes) : Prop where
  halted : s.halted = none
  state : s.client.state = st
  buf : s.client.buf = .of p
  readBuf : s.client.readBuf = readBuf r

/-- How far a login has got. -/
inductive Stage
  | start
  | greeting
  | hello
  | named
  | approval
  | approved
  | motd
  | done
  deriving DecidableEq

/-- The states of a session in which a login has got so far. -/
inductive Phase (conn : Conn) (name : Str) : Stage → Session → Prop
  | start {s : Session} : At s .start [] [] → s.toServer = [] → s.toClient = [] → s.serving = true →
      Free conn name s.world → Phase conn name .start s
  | greeting {s : Session} : At s .hello [] [] → s.toServer = [wire Request.me2u.render] →
      s.toClient = [] → s.serving = true → Free conn name s.world → Phase conn name .greeting s
  | hello {s : Session} {p q : Bytes} : At s .hello p [] → s.toServer = [] → s.toClient = [q] →
      u2emFrame = p ++ q → q ≠ [] → p = [] ∨ 4 ≤ p.length → s.serving = true →
      Free conn name s.world → Phase conn name .hello s
  | named {s : Session} : At s .approval [] [] →
      s.toServer = [wire (Request.iam name).render] → s.toClient = [] → s.serving = true →
      Free conn name s.world → Phase conn name .named s
  | approval {s : Session} {p q : Bytes} : At s .approval p [] → s.toServer = [] →
      s.toClient = [q, motdFrame] → maiFrame = p ++ q → q ≠ [] → p = [] ∨ 4 ≤ p.length →
      Phase conn name .approval s
  | approved {s : Session} {r : Bytes} : At s .motd [] r → s.toServer = [] →
      s.toClient = [motdFrame] →
      r = maiFrame ∨ r.length ≤ 3 → IsRead r → Phase conn name .approved s
  | motd {s : Session} {lo : Bytes} {k j : ℕ} : At s .motd (motdText lo k j) [] → s.toServer = [] →
      s.toClient = [motdFrame.drop j] → LeftOver lo k → 4 ≤ k → k ≤ j → j < 21 →
      Phase conn name .motd s
  | done {s : Session} : s.halted = none → s.client.state = .done → s.toServer = [] →
      s.toClient = [] → Phase conn name .done s

/-- The login starts in its first phase. -/
theorem Initial.phase {conn : Conn} {name : Str} {s : Session} (h : Initial conn name s) :
    Phase conn name .start s :=
  .start ⟨h.halted, by rw [h.client], by rw [h.client], by rw [h.client]⟩ h.toServer h.toClient
    h.serving h.free

section Steps

variable {conn : Conn} {addr : Addr} {name : Str} {st : Stage} {s s' : Session}

/-! ### The first step -/

/-- `ME2U` leads to the greeting. -/
theorem Phase.begin (h : Phase conn name st s) {userName : Block}
    (hstep : s.step conn addr userName .begin = some s') : Phase conn name .greeting s' := by
  rw [Session.step] at hstep
  split at hstep
  · next hstart =>
      obtain rfl := Option.some.inj hstep
      cases h with
      | start hat hsrv hcli hserving hfree =>
          have hrun : loginBegin.run s.client =
              (.ok (), { s.client with
                readBuf := readBuf []
                sent := s.client.sent ++ [wire Request.me2u.render]
                state := .hello }) := by
            rw [wire_eq, ← ending_eq]
            rfl
          refine .greeting ⟨?_, ?_, ?_, ?_⟩ ?_ hcli hserving hfree <;> rw [Session.ofClient, hrun]
          · exact hat.buf
          · simp [hsrv]
      | greeting hat => exact absurd (hat.state.symm.trans hstart) (by decide)
      | hello hat => exact absurd (hat.state.symm.trans hstart) (by decide)
      | named hat => exact absurd (hat.state.symm.trans hstart) (by decide)
      | approval hat => exact absurd (hat.state.symm.trans hstart) (by decide)
      | approved hat => exact absurd (hat.state.symm.trans hstart) (by decide)
      | motd hat => exact absurd (hat.state.symm.trans hstart) (by decide)
      | done _ hstate => exact absurd (hstate.symm.trans hstart) (by decide)
  · cases hstep

/-! ### The handler -/

/-- The server answers it with `U2EM`, -/
theorem ofServer_me2u (hopen : s.world.isOpen conn = true) (rest : List Bytes) :
    s.ofServer conn rest ((Server.handleData conn addr (wire Request.me2u.render)).run s.world) =
      { s with
        world := s.world.logged conn u2emFrame
        serving := true
        toServer := rest
        toClient := s.toClient ++ [u2emFrame] } := by
  rw [Server.run_handleData_me2u conn addr hopen, u2emFrame_eq]
  simp [Session.ofServer, delivered, hopen]

/-- and an `IAM` with a free name with `MAI` and `MOTD`. -/
theorem ofServer_iam (hname : '\r' ∉ name) (hfree : Free conn name s.world) (rest : List Bytes) :
    s.ofServer conn rest
    ((Server.handleData conn addr (wire (Request.iam name).render)).run s.world) =
      { s with
        world := s.world.loggedIn conn addr name
        serving := true
        toServer := rest
        toClient := s.toClient ++ [maiFrame, motdFrame] } := by
  have hreq : (Request.iam name).CRFree := hname
  rw [Server.handleData_wire conn addr hreq,
    Server.run_dispatch_iam_of_free conn addr hfree.1 hfree.2, maiFrame_eq, motdFrame_eq]
  simp [Session.ofServer, Server.World.loggedIn, delivered, hfree.1]

/-- The server leads to the next phase. -/
theorem Phase.serve (h : Phase conn name st s) (hname : LoginName name) {userName : Block}
    (hstep : s.step conn addr userName .serve = some s') :
    st = .greeting ∧ Phase conn name .hello s' ∨ st = .named ∧ Phase conn name .approval s' := by
  rw [Session.step] at hstep
  cases h with
  | greeting hat hsrv hcli hserving hfree =>
      simp only [hsrv, hserving, if_true] at hstep
      rw [ofServer_me2u hfree.1] at hstep
      obtain rfl := Option.some.inj hstep
      refine .inl ⟨rfl, ?_⟩
      exact .hello (p := []) (q := u2emFrame) ⟨hat.halted, hat.state, hat.buf, hat.readBuf⟩ rfl
        (by simp [hcli]) rfl (by decide) (.inl rfl) rfl hfree
  | named hat hsrv hcli hserving hfree =>
      simp only [hsrv, hserving, if_true] at hstep
      rw [ofServer_iam (hname.notMem (by decide)) hfree] at hstep
      obtain rfl := Option.some.inj hstep
      refine .inr ⟨rfl, ?_⟩
      exact .approval (p := []) (q := maiFrame) ⟨hat.halted, hat.state, hat.buf, hat.readBuf⟩ rfl
        (by simp [hcli]) rfl (by decide) (.inl rfl)
  | start _ hsrv => simp [hsrv] at hstep
  | hello _ hsrv => simp [hsrv] at hstep
  | approval _ hsrv => simp [hsrv] at hstep
  | approved _ hsrv => simp [hsrv] at hstep
  | motd _ hsrv => simp [hsrv] at hstep
  | done _ _ hsrv => simp [hsrv] at hstep

/-! ### The client -/

/-- What is read is the front of a frame, or the whole of it. -/
theorem Session.read_inv {b q : Bytes} {fs : List Bytes} {userName : Block}
    (hstep : s.step conn addr userName (.read b) = some s') (hcli : s.toClient = q :: fs)
    (hfs : ∀ g ∈ fs, g ≠ []) (hcare : Careful s (.read b)) :
    ∃ rest, q = b ++ rest ∧ b ≠ [] ∧ b.length < maxline ∧
      (s.client.buf.text = .ok [] → 4 ≤ b.length) ∧
      s' = { s with toClient := if rest = [] then fs else rest :: fs }.ofClient
        ((loginRead userName (.data b)).run s.client) := by
  rw [Session.step] at hstep
  split at hstep
  · next h =>
      obtain ⟨-, -, -, hne, hlen, hread⟩ := h
      obtain rfl := Option.some.inj hstep
      rw [hcli] at hread
      have hin : b.length ≤ q.length := hcare.1 q (by simp [hcli])
      obtain ⟨rest, hq, hdrop⟩ := dropBytes_cons hfs hread hin
      exact ⟨rest, hq, hne, hlen, hcare.2, by rw [hcli, hdrop]⟩
  · cases hstep

/-- A read in a frame over a cleared `read_buf`: the frame builds up, and its body is acted on when
all of it is there. -/
theorem At.loginRead {st : LoginState} {p b rest : Bytes} (hat : At s st p []) (body : Bytes)
    (h0 : 0 ∉ body ++ Client.ending) (honce : EndsOnce Client.ending (body ++ Client.ending))
    (hlim : (body ++ Client.ending).length < bufLimit) (hb : b.length < maxline)
    (hfour : p = [] ∨ 4 ≤ p.length) (hfirst : s.client.buf.text = .ok [] → 4 ≤ b.length)
    (hframe : body ++ Client.ending = p ++ b ++ rest) (userName : Block) :
    (Client.loginRead userName (.data b)).run s.client =
      if rest = [] then (loginString userName b.length (textBlock body 4)).run
        { s.client with buf := .of [], readBuf := Client.readBuf b }
      else (.ok (), { s.client with buf := .of (p ++ b), readBuf := Client.readBuf [] }) := by
  have hparts : 0 ∉ p ∧ 0 ∉ b := by
    rw [hframe] at h0
    simp only [List.mem_append, not_or] at h0
    exact h0.1
  have hlen : p.length + b.length < bufLimit := by
    rw [hframe] at hlim
    simp only [List.length_append] at hlim
    omega
  have hmanageable : Manageable (p ++ laidOver b []) := by
    rw [laidOver_nil]
    unfold Manageable
    rw [List.length_append]
    refine ⟨?_, hlen⟩
    rcases hfour with rfl | hfour
    · have := hfirst (by rw [hat.buf, RecvBuf.text_of (by simp)])
      omega
    · omega
  have hread : IsRead b := ⟨hparts.2, hb⟩
  have hnil : IsRead [] := ⟨by simp, by decide⟩
  split
  · next hrest =>
      subst hrest
      rw [List.append_nil] at hframe
      rw [run_loginRead_some hat.buf hat.readBuf hparts.1 (by omega) hread hnil hmanageable
        (by rw [laidOver_nil]; exact hframe.symm), laidOver_nil]
  · next hrest =>
      have hopen : ¬Client.ending <:+ p ++ laidOver b [] := by
        rw [laidOver_nil]
        rw [hframe] at honce
        rw [honce.isSuffix_iff]
        exact hrest
      rw [run_loginRead_none hat.buf hat.readBuf hparts.1 (by omega) hread hnil hmanageable hopen,
        laidOver_nil]

/-- The text has at least four bytes. -/
theorem At.four_le {st : LoginState} {p b r : Bytes} (hat : At s st p r)
    (hfour : p = [] ∨ 4 ≤ p.length)
    (hfirst : s.client.buf.text = .ok [] → 4 ≤ b.length) : 4 ≤ (p ++ b).length := by
  rw [List.length_append]
  rcases hfour with rfl | hfour
  · have := hfirst (by rw [hat.buf, RecvBuf.text_of (by simp)])
    omega
  · omega

/-- There is no NUL in such a name. -/
theorem zero_notMem_encode_of_loginName (hname : LoginName name) : 0 ∉ encode name :=
  mt zero_mem_encode.mp (hname.notMem (by decide))

/-- A read in the `U2EM` frame; the last one makes the client send its name. -/
theorem Phase.read_hello {p q b : Bytes} (hname : LoginName name) (hlen : (encode name).length ≤ 19)
    (hat : At s .hello p []) (hsrv : s.toServer = []) (hcli : s.toClient = [q])
    (hframe : u2emFrame = p ++ q) (hfour : p = [] ∨ 4 ≤ p.length) (hserving : s.serving = true)
    (hfree : Free conn name s.world) (hcare : Careful s (.read b))
    (hstep : s.step conn addr (textBlock (encode name) (20 - (encode name).length))
      (.read b) = some s') :
    Phase conn name .named s' ∨ b ≠ q ∧ Phase conn name .hello s' := by
  obtain ⟨rest, rfl, hne, hb, hfirst, rfl⟩ := Session.read_inv hstep hcli (by simp) hcare
  have hrun := hat.loginRead serverLoginInit (by decide) (by decide) (by decide) hb hfour hfirst
    (hframe.trans (List.append_assoc p b rest).symm)
      (textBlock (encode name) (20 - (encode name).length))
  by_cases hrest : rest = []
  · have hact := run_loginString_hello (c := { s.client with
      buf := .of []
      readBuf := Client.readBuf b }) hat.state (zero_notMem_encode_of_loginName hname) hlen b.length
    rw [if_pos hrest] at hrun
    rw [hrun.trans hact]
    refine .inl (.named ⟨rfl, rfl, rfl, rfl⟩ ?_ ?_ hserving hfree)
    · simp [Session.ofClient, hsrv, iamFrame_eq]
    · simp [Session.ofClient, hrest]
  · rw [if_neg hrest] at hrun
    rw [hrun]
    refine .inr ⟨by simpa using Ne.symm hrest, .hello (p := p ++ b) (q := rest)
      ⟨rfl, hat.state, rfl, rfl⟩ ?_ ?_ ?_ hrest (.inr (hat.four_le hfour hfirst)) hserving hfree⟩
    · simp [Session.ofClient, hsrv]
    · simp [Session.ofClient, hrest]
    · rw [hframe, List.append_assoc]

/-- A read in the `MAI` frame. -/
theorem Phase.read_approval {p q b : Bytes} {userName : Block} (hat : At s .approval p [])
    (hsrv : s.toServer = []) (hcli : s.toClient = [q, motdFrame]) (hframe : maiFrame = p ++ q)
    (hfour : p = [] ∨ 4 ≤ p.length) (hcare : Careful s (.read b))
    (hstep : s.step conn addr userName (.read b) = some s') :
    Phase conn name .approved s' ∨ b ≠ q ∧ Phase conn name .approval s' := by
  have hmotd : ∀ g ∈ [motdFrame], g ≠ [] := by decide
  obtain ⟨rest, rfl, hne, hb, hfirst, rfl⟩ := Session.read_inv hstep hcli hmotd hcare
  have hrun := hat.loginRead serverUserApprove (by decide) (by decide) (by decide) hb hfour
    hfirst (hframe.trans (List.append_assoc p b rest).symm) userName
  by_cases hrest : rest = []
  · subst hrest
    have hact := run_loginString_approval (c := { s.client with
      buf := .of []
      readBuf := Client.readBuf b }) hat.state userName b.length
    rw [if_pos rfl] at hrun
    rw [hrun.trans hact]
    have hread : IsRead b := by
      refine ⟨fun h => ?_, hb⟩
      have h0 : (0 : UInt8) ∉ maiFrame := by decide
      rw [hframe, List.append_nil] at h0
      exact h0 (List.mem_append_right p h)
    refine .inl (.approved (r := b) ⟨rfl, rfl, rfl, rfl⟩ ?_ ?_ ?_ hread)
    · simp [Session.ofClient, hsrv]
    · simp [Session.ofClient]
    · -- the last read of the frame is all of it, or what is behind the first one
      rcases hfour with rfl | hfour
      · exact .inl (by simpa using hframe.symm)
      · have hseven := congrArg List.length hframe
        have hmai : maiFrame.length = 7 := by decide
        simp only [List.length_append, List.length_nil, hmai] at hseven
        exact .inr (by omega)
  · rw [if_neg hrest] at hrun
    rw [hrun]
    refine .inr ⟨by simpa using Ne.symm hrest, .approval (p := p ++ b) (q := rest)
      ⟨rfl, hat.state, rfl, rfl⟩ ?_ ?_ ?_ hrest (.inr (hat.four_le hfour hfirst))⟩
    · simp [Session.ofClient, hsrv]
    · simp [Session.ofClient, hrest]
    · rw [hframe, List.append_assoc]

/-- A read in the `MOTD` frame, up to `j` bytes of it. -/
theorem Phase.read_motdText {p r b lo : Bytes} {k j : ℕ} {fs : List Bytes} {userName : Block}
    (hat : At s .motd p r) (hsrv : s.toServer = []) (hp : 0 ∉ p) (hplim : p.length < bufLimit)
    (hb : IsRead b) (hr : IsRead r) (htext : p ++ laidOver b r = motdText lo k j)
    (hlo : LeftOver lo k) (hk : 4 ≤ k) (hkj : k ≤ j) (hj : j ≤ 21)
    (hfs : fs = if motdFrame.drop j = [] then [] else [motdFrame.drop j]) :
    Phase conn name (if j = 21 then .done else .motd) ({ s with toClient := fs }.ofClient
      ((loginRead userName (.data b)).run s.client)) := by
  have hmanageable := manageable_motdText hlo hk hkj hj
  have hends := isSuffix_motdText_iff hlo hk hkj hj
  rw [← htext] at hmanageable hends
  by_cases hlast : j = 21
  · subst hlast
    obtain ⟨rest, hrest, hbody⟩ := exists_motdText_eq hlo hk hkj
    rw [← htext] at hbody
    obtain ⟨printed, hmotd⟩ := run_loginString_motd (c := { s.client with
      buf := .of []
      readBuf := Client.readBuf (laidOver b r) }) hat.state hrest userName b.length
    rw [if_pos rfl, run_loginRead_some hat.buf hat.readBuf hp hplim hb hr hmanageable hbody, hmotd]
    refine .done rfl rfl ?_ ?_
    · simp [Session.ofClient, hsrv]
    · have hall : motdFrame.drop 21 = [] := by decide
      rw [hfs, if_pos hall]
      rfl
  · have hmore : motdFrame.drop j ≠ [] := by
      have hlen : motdFrame.length = 21 := by decide
      rw [Ne, List.drop_eq_nil_iff]
      omega
    rw [if_neg hlast, run_loginRead_none hat.buf hat.readBuf hp hplim hb hr hmanageable
      (mt hends.mp hlast)]
    refine .motd ⟨rfl, hat.state, by rw [← htext]; rfl, rfl⟩ ?_ ?_ hlo hk hkj
      (by omega)
    · simp [Session.ofClient, hsrv]
    · rw [hfs, if_neg hmore]
      rfl

/-- Where something is read something was sent. -/
theorem Session.toClient_ne_nil_of_read {b : Bytes} {userName : Block}
    (hstep : s.step conn addr userName (.read b) = some s') : s.toClient ≠ [] := by
  rw [Session.step] at hstep
  split at hstep
  · next h =>
      obtain ⟨-, -, -, hne, -, hread⟩ := h
      intro hnil
      rw [hnil] at hread
      exact hne (List.prefix_nil.mp hread)
  · cases hstep

/-- The first read behind `MAI`. -/
theorem Phase.read_approved {r b : Bytes} {userName : Block} (hat : At s .motd [] r)
    (hsrv : s.toServer = []) (hcli : s.toClient = [motdFrame]) (hr : r = maiFrame ∨ r.length ≤ 3)
    (hread : IsRead r) (hcare : Careful s (.read b))
    (hstep : s.step conn addr userName (.read b) = some s') :
    Phase conn name (if b.length = 21 then .done else .motd) s' := by
  have hzero : (0 : UInt8) ∉ motdFrame := by decide
  have hfull : motdFrame.length = 21 := by decide
  obtain ⟨rest, hmotd, -, hb, hfirst, rfl⟩ := Session.read_inv hstep hcli (by simp) hcare
  have hfour : 4 ≤ b.length := hfirst (by rw [hat.buf, RecvBuf.text_of (by simp)])
  have hlen21 : b.length ≤ 21 := by
    rw [← hfull, hmotd, List.length_append]
    exact Nat.le_add_right _ _
  have htake : motdFrame.take b.length = b := by rw [hmotd, List.take_left]
  have hdrop : motdFrame.drop b.length = rest := by rw [hmotd, List.drop_left]
  have hb0 : IsRead b := ⟨fun h => hzero (hmotd ▸ List.mem_append_left rest h), hb⟩
  -- what is left of the read before: an end of `MAI` where that came whole, and else nothing
  have hover : ∃ lo, LeftOver lo b.length ∧ laidOver b r = motdText lo b.length b.length := by
    rcases hr with rfl | hr
    · exact ⟨_, .inr rfl, by simp [motdText, laidOver, htake]⟩
    · have hle : r.length ≤ b.length := by omega
      exact ⟨[], .inl rfl, by simp [motdText, laidOver_of_length_le hle, htake]⟩
  obtain ⟨lo, hlo, hover⟩ := hover
  exact Phase.read_motdText hat hsrv (by simp) (by decide)
    hb0 hread (by rw [List.nil_append, hover])
    hlo hfour (Nat.le_refl _) hlen21 (by rw [hdrop])

/-- A later read of `MOTD`. -/
theorem Phase.read_motd {lo b : Bytes} {k j : ℕ} {userName : Block}
    (hat : At s .motd (motdText lo k j) [])
    (hsrv : s.toServer = []) (hcli : s.toClient = [motdFrame.drop j]) (hlo : LeftOver lo k)
    (hk : 4 ≤ k) (hkj : k ≤ j) (hj : j < 21) (hcare : Careful s (.read b))
    (hstep : s.step conn addr userName (.read b) = some s') :
    Phase conn name (if j + b.length = 21 then .done else .motd) s' := by
  have hnil : IsRead [] := ⟨by simp, by decide⟩
  have hzero : (0 : UInt8) ∉ motdFrame := by decide
  have hfull : motdFrame.length = 21 := by decide
  obtain ⟨rest, hmotd, -, hb, -, rfl⟩ := Session.read_inv hstep hcli (by simp) hcare
  have hb0 : IsRead b := by
    refine ⟨fun h => hzero ?_, hb⟩
    have hmem : (0 : UInt8) ∈ motdFrame.drop j := hmotd ▸ List.mem_append_left rest h
    exact List.mem_of_mem_drop hmem
  have hlen21 : j + b.length ≤ 21 := by
    have h := congrArg List.length hmotd
    rw [List.length_drop, List.length_append, hfull] at h
    omega
  have hdrop : motdFrame.drop (j + b.length) = rest := by
    rw [← List.drop_drop, hmotd, List.drop_left]
  have hpend := manageable_motdText hlo hk hkj hj.le
  exact Phase.read_motdText hat hsrv (zero_notMem_motdText hlo) hpend.2 hb0 hnil
    (by rw [laidOver_nil, motdText_append hkj hmotd]) hlo hk (Nat.le_add_right_of_le hkj) hlen21
    (by rw [hdrop])

/-- A read of the client, in each phase. -/
theorem Phase.read (h : Phase conn name st s) (hname : LoginName name)
    (hlen : (encode name).length ≤ 19) {b : Bytes} (hcare : Careful s (.read b))
    (hstep : s.step conn addr (textBlock (encode name) (20 - (encode name).length))
      (.read b) = some s') :
    ∃ st', Phase conn name st' s' := by
  cases h with
  | start _ _ hcli => exact absurd hcli (Session.toClient_ne_nil_of_read hstep)
  | greeting _ _ hcli => exact absurd hcli (Session.toClient_ne_nil_of_read hstep)
  | named _ _ hcli => exact absurd hcli (Session.toClient_ne_nil_of_read hstep)
  | done _ _ _ hcli => exact absurd hcli (Session.toClient_ne_nil_of_read hstep)
  | hello hat hsrv hcli hframe _ hfour hserving hfree =>
      rcases Phase.read_hello hname hlen hat hsrv hcli hframe hfour hserving hfree hcare hstep with
        h | ⟨-, h⟩
      · exact ⟨_, h⟩
      · exact ⟨_, h⟩
  | approval hat hsrv hcli hframe _ hfour =>
      have h : Phase conn name .approved s' ∨ b ≠ _ ∧ Phase conn name .approval s' :=
        Phase.read_approval hat hsrv hcli hframe hfour hcare hstep
      rcases h with h | ⟨-, h⟩
      · exact ⟨_, h⟩
      · exact ⟨_, h⟩
  | approved hat hsrv hcli hr hread =>
      exact ⟨_, Phase.read_approved hat hsrv hcli hr hread hcare hstep⟩
  | motd hat hsrv hcli hlo hk hkj hj =>
      exact ⟨_, Phase.read_motd hat hsrv hcli hlo hk hkj hj hcare hstep⟩

/-- **A step** of a login goes on to the next phase or stays in its phase. -/
theorem Phase.step (h : Phase conn name st s) (hname : LoginName name)
    (hlen : (encode name).length ≤ 19) {e : Event} (hcare : Careful s e)
    (hstep : Step conn addr name s e s') : ∃ st', Phase conn name st' s' := by
  obtain ⟨userName, huser, hstep⟩ := hstep
  rw [currentUserName_eq hlen] at huser
  obtain rfl := Except.ok.inj huser
  cases e with
  | begin => exact ⟨_, h.begin hstep⟩
  | serve =>
      rcases h.serve hname hstep with ⟨-, h⟩ | ⟨-, h⟩
      · exact ⟨_, h⟩
      · exact ⟨_, h⟩
  | read b => exact h.read hname hlen hcare hstep

end Steps

/-- A login has not failed, and is through once everything has been handled and read. -/
theorem Phase.completes {conn : Conn} {name : Str} {st : Stage} {s : Session}
    (h : Phase conn name st s) :
    s.halted = none ∧ (s.Settled → s.client.state = .done) := by
  cases h with
  | start hat => exact ⟨hat.halted, fun hs => absurd hat.state hs.1⟩
  | greeting hat hsrv => exact ⟨hat.halted, fun hs => absurd (hsrv.symm.trans hs.2.1) (by simp)⟩
  | hello hat _ hcli => exact ⟨hat.halted, fun hs => absurd (hcli.symm.trans hs.2.2) (by simp)⟩
  | named hat hsrv => exact ⟨hat.halted, fun hs => absurd (hsrv.symm.trans hs.2.1) (by simp)⟩
  | approval hat _ hcli => exact ⟨hat.halted, fun hs => absurd (hcli.symm.trans hs.2.2) (by simp)⟩
  | approved hat _ hcli => exact ⟨hat.halted, fun hs => absurd (hcli.symm.trans hs.2.2) (by simp)⟩
  | motd hat _ hcli => exact ⟨hat.halted, fun hs => absurd (hcli.symm.trans hs.2.2) (by simp)⟩
  | done hhalted hstate => exact ⟨hhalted, fun _ => hstate⟩

/-! ## Runs -/

section Runs

variable {conn : Conn} {addr : Addr} {name : Str} {s : Session}

/-- What is on its way can be read. -/
theorem At.exists_read {st : LoginState} {p r b : Bytes} (conn : Conn) (addr : Addr)
    (hat : At s st p r) (hst : st ≠ .start)
    (hst' : st ≠ .done) (hne : b ≠ []) (hlen : b.length < maxline) (hpre : b <+: s.toClient.flatten)
    (userName : Block) : ∃ s', s.step conn addr userName (.read b) = some s' :=
  ⟨_, if_pos ⟨hat.halted, by rwa [hat.state], by rwa [hat.state], hne, hlen, hpre⟩⟩

/-- It is careful to read just the rest of a frame. -/
theorem At.careful {st : LoginState} {p r q : Bytes} {fs : List Bytes}
    (hat : At s st p r) (hp : 0 ∉ p)
    (hcli : s.toClient = q :: fs) (hfour : p = [] → 4 ≤ q.length) : Careful s (.read q) := by
  refine ⟨by simp [hcli], fun h => hfour ?_⟩
  rw [hat.buf, RecvBuf.text_of hp] at h
  exact Except.ok.inj h

/-- The rest of a frame is a read of its own. -/
theorem At.exists_read_rest {st : LoginState} {frame p q : Bytes} {fs : List Bytes}
    (hat : At s st p []) (hst : st ≠ .start) (hst' : st ≠ .done) (hcli : s.toClient = q :: fs)
    (hframe : frame = p ++ q) (h0 : 0 ∉ frame) (hq : q ≠ []) (hfour : 4 ≤ frame.length)
    (hlen : frame.length < maxline) (userName : Block) :
    Careful s (.read q) ∧ ∃ s', s.step conn addr userName (.read q) = some s' := by
  have hp : 0 ∉ p := fun h => h0 (hframe ▸ List.mem_append_left q h)
  have hqlen : q.length ≤ frame.length := by
    rw [hframe, List.length_append]
    exact Nat.le_add_left _ _
  refine ⟨hat.careful hp hcli ?_,
    hat.exists_read conn addr hst hst' hq (hqlen.trans_lt hlen) ?_ userName⟩
  · rintro rfl
    rwa [hframe] at hfour
  · rw [hcli, List.flatten_cons]
    exact List.prefix_append q _

/-- A login gets to where its name is approved. -/
theorem Initial.exists_approval (addr : Addr) (h₀ : Initial conn name s) (hname : LoginName name)
    (hlen : (encode name).length ≤ 19) :
    ∃ s, Reaches (Initial conn name) Careful (Step conn addr name) s ∧
      Phase conn name .approval s := by
  have huser := currentUserName_eq hlen
  have hreach : Reaches (Initial conn name) Careful (Step conn addr name) s := .start h₀
  have hphase := h₀.phase
  obtain ⟨s₁, hstep₁⟩ : ∃ s', s.step conn addr
      (textBlock (encode name) (20 - (encode name).length)) .begin = some s' := by
    cases hphase with
    | start hat => exact ⟨_, if_pos hat.state⟩
  have h₁ := hphase.begin hstep₁
  have hreach₁ := hreach.step (show Careful s .begin from trivial) ⟨_, huser, hstep₁⟩
  obtain ⟨s₂, hstep₂⟩ : ∃ s', s₁.step conn addr
      (textBlock (encode name) (20 - (encode name).length)) .serve = some s' := by
    cases h₁ with
    | greeting _ hsrv _ hserving => simp [Session.step, hsrv, hserving]
  have h₂ : Phase conn name .hello s₂ :=
    (h₁.serve hname hstep₂).elim And.right fun h => absurd h.1 (by decide)
  have hreach₂ := hreach₁.step (show Careful s₁ .serve from trivial) ⟨_, huser, hstep₂⟩
  obtain ⟨q, s₃, hcare₃, hstep₃, h₃⟩ : ∃ q s', Careful s₂ (.read q) ∧ s₂.step conn addr
      (textBlock (encode name) (20 - (encode name).length)) (.read q) = some s' ∧
      Phase conn name .named s' := by
    cases h₂ with
    | @hello _ p q hat hsrv hcli hframe hq hfour hserving hfree =>
        obtain ⟨hcare, s', hstep⟩ :=
          hat.exists_read_rest (by decide) (by decide) hcli hframe (by decide)
          hq (by decide) (by decide) (textBlock (encode name) (20 - (encode name).length))
        refine ⟨q, s', hcare, hstep, ?_⟩
        exact (Phase.read_hello hname hlen hat hsrv hcli hframe hfour hserving hfree
          hcare hstep).elim id
          fun h => absurd rfl h.1
  have hreach₃ := hreach₂.step hcare₃ ⟨_, huser, hstep₃⟩
  obtain ⟨s₄, hstep₄⟩ : ∃ s', s₃.step conn addr
      (textBlock (encode name) (20 - (encode name).length)) .serve = some s' := by
    cases h₃ with
    | named _ hsrv _ hserving => simp [Session.step, hsrv, hserving]
  have h₄ : Phase conn name .approval s₄ :=
    (h₃.serve hname hstep₄).elim (fun h => absurd h.1 (by decide)) And.right
  exact ⟨s₄, hreach₃.step (show Careful s₃ .serve from trivial) ⟨_, huser, hstep₄⟩, h₄⟩

/-- **A login gets through**, frame by frame. -/
theorem Initial.exists_done (addr : Addr) (h₀ : Initial conn name s) (hname : LoginName name)
    (hlen : (encode name).length ≤ 19) :
    ∃ s, Reaches (Initial conn name) Careful (Step conn addr name) s ∧ Phase conn name .done s := by
  have huser := currentUserName_eq hlen
  obtain ⟨s₀, hreach₀, h₀⟩ := h₀.exists_approval addr hname hlen
  obtain ⟨q, s₁, hcare₁, hstep₁, h₁⟩ : ∃ q s', Careful s₀ (.read q) ∧ s₀.step conn addr
      (textBlock (encode name) (20 - (encode name).length)) (.read q) = some s' ∧
      Phase conn name .approved s' := by
    cases h₀ with
    | @approval _ p q hat hsrv hcli hframe hq hfour =>
        obtain ⟨hcare, s', hstep⟩ :=
          hat.exists_read_rest (by decide) (by decide) hcli hframe (by decide)
          hq (by decide) (by decide) (textBlock (encode name) (20 - (encode name).length))
        refine ⟨q, s', hcare, hstep, ?_⟩
        exact (Phase.read_approval hat hsrv hcli hframe hfour hcare hstep).elim id
          fun h => absurd rfl h.1
  have hreach₁ := hreach₀.step hcare₁ ⟨_, huser, hstep₁⟩
  obtain ⟨s₂, hcare₂, hstep₂, h₂⟩ : ∃ s', Careful s₁ (.read motdFrame) ∧ s₁.step conn addr
      (textBlock (encode name) (20 - (encode name).length)) (.read motdFrame) = some s' ∧
      Phase conn name .done s' := by
    cases h₁ with
    | approved hat hsrv hcli hr hread =>
        have hcare := hat.careful (by simp) hcli fun _ => by decide
        obtain ⟨s', hstep⟩ := hat.exists_read conn addr (by decide) (by decide)
          (show motdFrame ≠ [] by decide) (by decide) (by simp [hcli])
          (textBlock (encode name) (20 - (encode name).length))
        have hdone : Phase conn name (if motdFrame.length = 21 then .done else .motd) s' :=
          Phase.read_approved hat hsrv hcli hr hread hcare hstep
        exact ⟨s', hcare, hstep, by rwa [if_pos (by decide)] at hdone⟩
  exact ⟨s₂, hreach₁.step hcare₂ ⟨_, huser, hstep₂⟩, h₂⟩

/-- What the client takes for one reply where `MAI` and `MOTD` come in one read. -/
def gluedReply : Bytes := serverUserApprove ++ Client.ending ++ serverMotd ++ 32 ::
    encode Server.motd

/-- Where the rest of `MAI` and all of `MOTD` come in one read, the client stops with an error. -/
theorem Phase.exists_error (addr : Addr) (h : Phase conn name .approval s)
    (hlen : (encode name).length ≤ 19) :
    ∃ b s', Step conn addr name s (.read b) s' ∧
      s'.halted = some (.error "Invalid syntex on username approval notice") := by
  cases h with
  | @approval _ p q hat hsrv hcli hframe hq hfour =>
      have hall : p ++ (q ++ motdFrame) = gluedReply ++ Client.ending := by
        rw [← List.append_assoc, ← hframe]
        decide
      have h0 : (0 : UInt8) ∉ p ++ (q ++ motdFrame) := by
        rw [hall]
        decide
      have htotal : (p ++ (q ++ motdFrame)).length = 28 := by
        rw [hall]
        decide
      have hlen28 : (q ++ motdFrame).length ≤ 28 := by
        rw [List.length_append] at htotal
        omega
      have hread : IsRead (q ++ motdFrame) :=
        ⟨fun h => h0 (List.mem_append_right p h), hlen28.trans_lt (by decide)⟩
      have hmanageable : Manageable (p ++ laidOver (q ++ motdFrame) []) := by
        rw [laidOver_nil, Manageable, htotal]
        exact ⟨by decide, by decide⟩
      obtain ⟨s', hstep⟩ := hat.exists_read conn addr (by decide) (by decide)
        (show q ++ motdFrame ≠ [] by simp [hq]) hread.2 (by simp [hcli])
        (textBlock (encode name) (20 - (encode name).length))
      refine ⟨q ++ motdFrame, s', ⟨_, currentUserName_eq hlen, hstep⟩, ?_⟩
      have hp : 0 ∉ p := fun h => h0 (List.mem_append_left _ h)
      have hplen : p.length ≤ 28 := by
        rw [List.length_append] at htotal
        omega
      have hbody : (0 : UInt8) ∉ gluedReply := by decide
      have hrun := run_loginRead_some hat.buf hat.readBuf hp
        (hplen.trans_lt (by decide)) hread ⟨by simp, by decide⟩
          hmanageable (by rw [laidOver_nil, hall])
        (textBlock (encode name) (20 - (encode name).length))
      have herror := run_loginString_approval_of_ne (c := { s.client with
        buf := .of []
        readBuf := Client.readBuf (laidOver (q ++ motdFrame) []) })
          hat.state hbody (by decide) (by decide)
        (textBlock (encode name) (20 - (encode name).length)) (q ++ motdFrame).length
      rw [Session.step] at hstep
      split at hstep
      · obtain rfl := Option.some.inj hstep
        unfold Session.ofClient
        rw [hrun.trans herror]
      · cases hstep

end Runs

/-! ## When a login completes -/

/-- **Login completes**: for every name that fits the client's arrays and is free, in every run of
the client and its handler whose reads are careful, the client takes no error exit, and when
everything sent has been handled and read, it is logged in. -/
theorem login_completes (conn : Conn) (addr : Addr) (name : Str) (s : Session)
    (hname : LoginName name) (hlen : (encode name).length ≤ 19)
    (h : Reaches (Initial conn name) Careful (Step conn addr name) s) :
    s.halted = none ∧ (s.Settled → s.client.state = .done) := by
  have hphase : ∃ st, Phase conn name st s :=
    h.invariant (I := fun s => ∃ st, Phase conn name st s) (fun _ h => ⟨_, h.phase⟩)
      fun _ _ _ ⟨_, h⟩ hcare hstep => h.step hname hlen hcare hstep
  obtain ⟨st, hphase⟩ := hphase
  exact hphase.completes

/-- A session before the login, with an empty registry. -/
private def fresh : Session :=
  ⟨⟨.of [], readBuf [], .start, [], []⟩, none, ⟨[], fun _ => true, []⟩, true, [], []⟩

private theorem initial_fresh (name : Str) : Initial 0 name fresh :=
  ⟨rfl, rfl, rfl, rfl, rfl, rfl, rfl⟩

/-- A login with a name of one letter. -/
theorem login_completes_one_letter :
    ∃ s, Reaches (Initial 0 ['a']) Careful (Step 0 0 ['a']) s ∧ s.Settled ∧
      s.halted = none ∧ s.client.state = .done := by
  obtain ⟨s, hreach, hphase⟩ :=
    (initial_fresh ['a']).exists_done 0 (by decide) (by decide)
  have hsettled : s.Settled := by
    cases hphase with
    | done _ hstate hsrv hcli => exact ⟨by simp [hstate], hsrv, hcli⟩
  obtain ⟨hhalted, hdone⟩ := login_completes 0 0 ['a'] s (by decide) (by decide) hreach
  exact ⟨s, hreach, hsettled, hhalted, hdone hsettled⟩

/-- A login whose reads are cut in any way may fail. -/
theorem not_login_completes :
    ¬∀ (conn : Conn) (addr : Addr) (name : Str) (s : Session), LoginName name →
      Reachable (Initial conn name) (Step conn addr name) s →
      s.halted = none ∧ (s.Settled → s.client.state = .done) := by
  intro hall
  obtain ⟨s, hreach, hphase⟩ :=
    (initial_fresh ['a']).exists_approval 0 (by decide) (by decide)
  obtain ⟨b, s', hstep, herror⟩ := hphase.exists_error 0 (by decide)
  have hreach' : Reachable (Initial 0 ['a']) (Step 0 0 ['a']) s :=
    hreach.weaken fun _ _ _ => trivial
  have hnone := (hall 0 0 ['a'] s' (by decide) (hreach'.next hstep)).1
  rw [herror] at hnone
  cases hnone

end ME2U.System
