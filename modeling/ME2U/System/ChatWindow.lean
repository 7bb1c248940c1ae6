import ME2U.Client.Announced
import ME2U.Client.ChatProgram
import ME2U.Found.Fifo
import ME2U.System.Link

/-!
# The client and a chat window

There is one pipe between the client and the program in a window, and both hold both of its ends.
The client writes messages to the write end, and would read what was typed from the read end. The
chat program reads messages from the read end, and writes what is typed to the read end as well:
that write fails, and the line is gone.

* `pipeEnd`, `writePipe`, `readPipe`: reads and writes by descriptor.
* `WindowRun.Step`: the client and the chat programs take steps in any order.
* `WindowRun.lossless_iff`: messages reach an open window, once and in order, and lines do not reach
  the client.
-/

namespace ME2U.System

open Client

/-! ## Pipes and their ends -/

/-- Who holds the ends of a pipe. -/
inductive Party
  | client
  | window
  deriving DecidableEq

/-- The pipes, by their read ends. -/
abbrev Pipes := ℕ → Fifo Party UInt8

/-- The pipe that a descriptor belongs to, and the end that it is. -/
def pipeEnd (windows : List Window) (fd : ℕ) : Option (ℕ × PipeEnd) :=
  match windows.find? fun win => win.rd == fd with
  | some win => some (win.rd, .reading)
  | none => (windows.find? fun win => win.wrt == fd).map fun win => (win.rd, .writing)

/-- A call for a descriptor. -/
def atEnd (windows : List Window) (f : Fifo Party UInt8 → PipeEnd → Fifo Party UInt8)
    (pipes : Pipes) (fd : ℕ) : Pipes :=
  match pipeEnd windows fd with
  | some (n, e) => Function.update pipes n (f (pipes n) e)
  | none => pipes

/-- `write(fd, bs, n)` -/
def writePipe (windows : List Window) (p : Party) (pipes : Pipes) : Fd × Bytes → Pipes
  | (.pipe fd, bs) => atEnd windows (Fifo.write p bs) pipes fd
  | _ => pipes

@[simp] theorem writePipe_pipe (windows : List Window) (p : Party) (pipes : Pipes)
    (fd : ℕ) (bs : Bytes) :
    writePipe windows p pipes (.pipe fd, bs) = atEnd windows (Fifo.write p bs) pipes fd := rfl

/-- `read(fd, buf, max)` -/
def readPipe (windows : List Window) (p : Party) (max : ℕ) : Pipes → ℕ → Pipes :=
  atEnd windows (Fifo.read p max)

/-- What it returns: it waits until there is something, and fails at a write end. -/
def Returns (windows : List Window) (max : ℕ) (pipes : Pipes) (fd : ℕ) (r : ReadResult) : Prop :=
  match pipeEnd windows fd with
  | some (n, .reading) =>
      (pipes n).inside ≠ [] ∧ r = .data (((pipes n).inside.take max).map Prod.snd)
  | _ => r = .failed

/-- The messages written to a pipe, to whichever end. -/
def messagesFor (rd wrt : ℕ) (wrote : List (Fd × Bytes)) : List Bytes :=
  (wrote.filter fun x => x.1 = .pipe rd ∨ x.1 = .pipe wrt).map Prod.snd

/-- The messages for a window, in two parts. -/
theorem messagesFor_append (rd wrt : ℕ) (l ws : List (Fd × Bytes)) :
    messagesFor rd wrt (l ++ ws) = messagesFor rd wrt l ++ messagesFor rd wrt ws := by
  unfold messagesFor
  rw [List.filter_append, List.map_append]

/-! ## Runs -/

section Reads

variable (slack : Slack) (pipe : ℕ → ReadResult)

/-- The descriptors that are read from in the loop over the users.
Source: `client.c` `any_children_replied` (lines 321–372) -/
def childrenRead (rset : List ℕ) : List ℕ → Block → Process → List ℕ
  | [], _, _ => []
  | i :: rest, blk, c =>
      match c.users[i]? with
      | none => []
      | some u =>
          if u.active ∧ (u.rd ∈ rset ∨ u.wrt ∈ rset) then
            u.rd :: match (childReplied slack i u blk (pipe u.rd)).run c with
              | (.ok blk, c) => childrenRead rset rest blk c
              | (.error _, _) => []
          else childrenRead rset rest blk c

/-- The descriptors of windows that are read from in an iteration.
Source: `client.c` `regular_chat` (lines 220–316) -/
def iterationReads (pid : ℕ → ℕ) (ready : List ℕ) (server : ReadResult) (l : Loop) : List ℕ :=
  match (beforeInput slack pid ready server).run l with
  | (.ok (.input, blk), l₁) =>
      if stdinFd ∈ ready then []
      else childrenRead slack pipe l₁.rset (List.range l₁.desk.client.users.length)
        blk l₁.desk.client
  | _ => []

end Reads

/-- A client, the programs in its windows, and the pipes between them. -/
structure WindowRun where
  run : DeskRun
  pipes : Pipes
  /-- The lines typed in a window. -/
  typed : ℕ → List Bytes

namespace WindowRun

/-- The client process of the run, -/
def client (s : WindowRun) : Process := s.run.loop.desk.client

/-- and its windows. -/
def windows (s : WindowRun) : List Window := s.run.loop.desk.windows

end WindowRun

/-- What happens in a run. -/
inductive WindowEvent
  /-- A step of the client; or a window is closed. -/
  | client (e : DeskEvent)
  /-- An iteration of a chat program, with what `select` leaves in `rset` and what the reads
  return. -/
  | window (win : Window) (ready : List ℕ) (piped typed : ReadResult)

/-- What a step of the client reads from the windows. -/
def DeskEvent.reads (slack : Slack) (l : Loop) : DeskEvent → List (ℕ × ReadResult)
  | .iterates ready server _ pipe pid =>
      (iterationReads slack pipe pid ready server l).map fun fd => (fd, pipe fd)
  | _ => []

/-- What can be typed in a window, a line at a time. -/
def Typed : ReadResult → Prop
  | .data line => line ≠ [] ∧ line.length ≤ chatMaxline
  | _ => True

/-- The line that is read in an iteration of a chat program. -/
def lineTyped (rd : ℕ) (ready : List ℕ) : ReadResult → List Bytes
  | .data line => if rd ∉ ready ∧ stdinFd ∈ ready then [line] else []
  | _ => []

namespace WindowRun

/-- The state after an iteration of the chat program in `win`; the window closes when that ends. -/
def shown (s : WindowRun) (win : Window) (ready : List ℕ) (piped typed : ReadResult) : WindowRun :=
  let r := (chatIteration win.rd ready piped typed).run []
  let pipes :=
    if win.rd ∈ ready then readPipe s.windows .window chatMaxline s.pipes win.rd else s.pipes
  { run := match r.1 with
      | .ok _ => s.run
      | .error _ => { s.run with loop := { s.run.loop with desk := s.run.loop.desk.exit win.wrt } }
    pipes := r.2.foldl (writePipe s.windows .window) pipes
    typed := Function.update s.typed win.rd (s.typed win.rd ++ lineTyped win.rd ready typed) }

/-- The steps of a run. -/
def Step (slack : Slack) (s : WindowRun) : WindowEvent → WindowRun → Prop
  | .client e, s' =>
      s.run.Step slack e s'.run ∧ s'.typed = s.typed ∧
        (∀ x ∈ DeskEvent.reads slack s.run.loop e, Returns s.windows maxline s.pipes x.1 x.2) ∧
        s'.pipes = (newly s.client.wrote s'.client.wrote).foldl (writePipe s'.windows .client)
          (((DeskEvent.reads slack s.run.loop e).map Prod.fst).foldl
            (readPipe s.windows .client maxline) s.pipes)
  | .window win ready piped typed, s' =>
      win ∈ s.windows ∧ win.exited = false ∧ (∀ fd ∈ ready, fd = stdinFd ∨ fd = win.rd) ∧
        (win.rd ∈ ready → Returns s.windows chatMaxline s.pipes win.rd piped) ∧ Typed typed ∧
        s' = s.shown win ready piped typed

/-- The start of `regular_chat`; something may have been read already. -/
def Initial (s : WindowRun) : Prop :=
  ∃ buf, s = ⟨⟨⟨⟨Process.initial.withBuf buf, [], []⟩, [], false, []⟩, false⟩,
    fun _ => .empty, fun _ => []⟩

/-- The states that the runs reach. -/
abbrev Reached (slack : Slack) : WindowRun → Prop := Reachable Initial (Step slack)

/-- **A lossless window.** -/
structure Lossless (slack : Slack) (s : WindowRun) (win : Window) : Prop where
  /-- The messages of the client go to the chat program. -/
  messages : (s.pipes win.rd).Carries .client .window
    (messagesFor win.rd win.wrt s.client.wrote).flatten
  /-- The lines go to the client. -/
  lines : (s.pipes win.rd).Carries .window .client (s.typed win.rd).flatten
  /-- The chat program can go on reading the messages that are inside. -/
  goesOn : (∃ x ∈ (s.pipes win.rd).inside, x.1 = .client) → ∃ ready piped typed s',
    s.Step slack (.window win ready piped typed) s' ∧
      (s'.pipes win.rd).inside.length < (s.pipes win.rd).inside.length

end WindowRun

/-! ## What the client does to the pipes -/

/-- The ends of a pipe are neighbours, and what was written to a pipe went to that of a user. -/
structure Paired (c : Process) : Prop where
  next : c.nextFd % 2 = 0
  ends : ∀ f ∈ c.users.map fun u => (u.rd, u.wrt), f.1 % 2 = 0 ∧ f.2 = f.1 + 1
  wrote : ∀ x ∈ c.wrote, ∀ n, x.1 = .pipe n → ∃ f ∈ c.users.map fun u => (u.rd, u.wrt), f.2 = n

/-- A write to a pipe that a user has keeps the pipes paired. -/
theorem Paired.write {c : Process} (h : Paired c) {fd : Fd}
    (hfd : ∀ n, fd = .pipe n → ∃ u ∈ c.users, u.wrt = n) (bs : Bytes) :
    Paired { c with wrote := c.wrote ++ [(fd, bs)] } := by
  refine ⟨h.next, h.ends, ?_⟩
  rw [List.forall_mem_append, List.forall_mem_singleton]
  refine ⟨h.wrote, fun n hn => ?_⟩
  obtain ⟨u, hu, hwrt⟩ := hfd n hn
  exact ⟨(u.rd, u.wrt), List.mem_map_of_mem hu, hwrt⟩

/-- Changing a user leaves its pipe. -/
theorem Paired.modify {c : Process} (h : Paired c) (i : ℕ) {f : UserStruct → UserStruct}
    (hf : ∀ u, (f u).rd = u.rd ∧ (f u).wrt = u.wrt) :
    Paired { c with users := c.users.modify i f } := by
  have hsame : (c.users.modify i f).map (fun u => (u.rd, u.wrt)) = c.users.map fun u =>
      (u.rd, u.wrt) :=
    map_modify_of_eq (fun u => Prod.ext (hf u).1 (hf u).2) c.users i
  refine ⟨h.next, ?_, ?_⟩ <;> rw [hsame]
  · exact h.ends
  · exact h.wrote

/-- No output of the client unpairs its pipes, -/
theorem stable_paired : Stable Paired where
  wrote := by
    intro c fd bs hfd h
    apply h.write
    rintro n rfl
    obtain hfd | ⟨u, hu, hfd⟩ := hfd
    · cases hfd
    · exact ⟨u, hu, (Fd.pipe.inj hfd).symm⟩
  addUser := by
    intro c w _ h
    have hnext := h.next
    have hnext' : (c.nextFd + 2) % 2 = 0 := by omega
    refine ⟨hnext', ?_, ?_⟩
    · unfold Process.addUser
      rw [List.map_append, List.forall_mem_append]
      exact ⟨h.ends, by simpa using hnext⟩
    · intro x hx n hn
      obtain ⟨f, hf, hfn⟩ := h.wrote x hx n hn
      refine ⟨f, ?_, hfn⟩
      unfold Process.addUser
      rw [List.map_append]
      exact List.mem_append_left _ hf
  confirm := fun c i h => h.modify i fun _ => ⟨rfl, rfl⟩

/-- nor does any other of its changes. -/
theorem steady_paired : Steady Paired where
  stable := stable_paired
  sock := fun c bs h => h.write (fun n hn => by cases hn) bs
  buf := fun c s h => ⟨h.next, h.ends, h.wrote⟩
  untilSock := fun _ _ _ h => ⟨h.next, h.ends, fun x hx => h.wrote x (List.mem_of_mem_take hx)⟩
  deactivate := fun c i h => h.modify i fun _ => ⟨rfl, rfl⟩

/-- No window is read from. -/
theorem childrenRead_eq_nil {slack : Slack} {rset : List ℕ}
    (hrset : ∀ fd ∈ rset, fd < 4) {c : Process}
    (hc : c.PipesApart) (pipe : ℕ → ReadResult) (is : List ℕ) (blk : Block) :
    childrenRead slack pipe rset is blk c = [] := by
  induction is with
  | nil => rfl
  | cons i is ih =>
      unfold childrenRead
      cases hu : c.users[i]? with
      | none => rfl
      | some u =>
          dsimp only
          rw [if_neg (hc.not_watched hrset (List.mem_of_getElem? hu))]
          exact ih

/-- With no window ready no pipe is read. -/
theorem iterationReads_eq_nil {slack : Slack} {pid : ℕ → ℕ} {ready : List ℕ}
    (hready : ∀ fd ∈ ready, fd < 4)
    (server : ReadResult) {l : Loop} (hl : l.Sound pid) (pipe : ℕ → ReadResult) :
    iterationReads slack pipe pid ready server l = [] := by
  have hkeeps : Eff.Keeps (Loop.Sound pid) (beforeInput slack pid ready server) :=
    keeps_sound_beforeInput slack pid hready
  have hafter := hkeeps l hl
  unfold iterationReads
  split
  · next blk l₁ hrun =>
      rw [hrun] at hafter
      rw [childrenRead_eq_nil hafter.unwatched hafter.tidy.pipesApart, ite_self]
  · rfl

/-- **The client reads nothing** from its windows. -/
theorem reads_eq_nil {slack : Slack} {s s' : DeskRun} {e : DeskEvent} (h : s.Holds)
    (hst : s.Step slack e s') : DeskEvent.reads slack s.loop e = [] := by
  cases e with
  | iterates ready server typed pipe pid =>
      obtain ⟨-, hready, -, -, hforks, -⟩ := hst
      unfold DeskEvent.reads
      dsimp only
      rw [iterationReads_eq_nil (fun fd hfd => h.unwatched.watched fd (hready fd hfd)) server
        ⟨h.tidy, hforks.forking, h.unwatched, h.filings⟩ pipe, List.map_nil]
  | exits n => rfl
  | sigchild pids => rfl

/-! ## Ends and descriptors -/

section Ends

variable {windows : List Window} (hpairs : ∀ win ∈ windows, win.rd % 2 = 0 ∧ win.wrt = win.rd + 1)

/-- One pipe is changed at most. -/
theorem atEnd_cases (windows : List Window) (f : Fifo Party UInt8 → PipeEnd → Fifo Party UInt8)
    (pipes : Pipes) (fd n : ℕ) :
    atEnd windows f pipes fd n = pipes n ∨ ∃ e, atEnd windows f pipes fd n = f (pipes n) e := by
  unfold atEnd
  rcases pipeEnd windows fd with - | ⟨m, e⟩
  · exact .inl rfl
  · dsimp only
    by_cases heq : n = m
    · subst heq
      exact .inr ⟨e, Function.update_self _ _ _⟩
    · exact .inl (Function.update_of_ne heq _ _)

theorem atEnd_of_pipeEnd {windows : List Window} {fd n : ℕ} {e : PipeEnd}
    (h : pipeEnd windows fd = some (n, e)) (f : Fifo Party UInt8 → PipeEnd → Fifo Party UInt8)
    (pipes : Pipes) : atEnd windows f pipes fd = Function.update pipes n (f (pipes n) e) := by
  unfold atEnd
  rw [h]

/-- The descriptor of a read end. -/
theorem pipeEnd_rd {win : Window} (hwin : win ∈ windows) :
    pipeEnd windows win.rd = some (win.rd, .reading) := by
  unfold pipeEnd
  cases hfind : windows.find? fun w => w.rd == win.rd with
  | none => exact absurd (beq_self_eq_true _) (List.find?_eq_none.mp hfind win hwin)
  | some w =>
      have hrd : w.rd = win.rd := by simpa using List.find?_some hfind
      dsimp only
      rw [hrd]

include hpairs in
/-- The descriptor of a write end. -/
theorem pipeEnd_wrt {win : Window} (hwin : win ∈ windows) :
    pipeEnd windows win.wrt = some (win.rd, .writing) := by
  have hwrt := hpairs win hwin
  have hnone : windows.find? (fun w => w.rd == win.wrt) = none := by
    apply List.find?_eq_none.mpr
    intro w hw
    have heven := (hpairs w hw).1
    simp only [beq_iff_eq]
    omega
  unfold pipeEnd
  rw [hnone]
  cases hfind : windows.find? fun w => w.wrt == win.wrt with
  | none => exact absurd (beq_self_eq_true _) (List.find?_eq_none.mp hfind win hwin)
  | some w =>
      have heq : w.wrt = win.wrt := by simpa using List.find?_some hfind
      have hw := hpairs w (List.mem_of_find?_eq_some hfind)
      have hrd : w.rd = win.rd := by omega
      dsimp only
      rw [Option.map_some, hrd]

include hpairs in
/-- **One write of the client.** -/
theorem put_writePipe {p : Party} {x : Fd × Bytes}
    (hx : ∀ n, x.1 = .pipe n → ∃ win ∈ windows, win.wrt = n) (pipes : Pipes) {rd : ℕ}
    (hrd : rd % 2 = 0) :
    (writePipe windows p pipes x rd).put =
      (pipes rd).put ++ (messagesFor rd (rd + 1) [x]).flatten.map (p, ·) := by
  obtain ⟨fd, bs⟩ := x
  cases fd with
  | stdout => simp [writePipe, messagesFor]
  | sock => simp [writePipe, messagesFor]
  | pipe n =>
      obtain ⟨win, hwin, rfl⟩ := hx n rfl
      have hpair := hpairs win hwin
      rw [writePipe_pipe, atEnd_of_pipeEnd (pipeEnd_wrt hpairs hwin)]
      by_cases heq : rd = win.rd
      · subst heq
        rw [Function.update_self, Fifo.put_write, hpair.2]
        simp [messagesFor]
      · have hother : ¬(win.wrt = rd ∨ win.wrt = rd + 1) := by omega
        rw [Function.update_of_ne heq]
        simp [messagesFor, hother]

/-- A write takes nothing out of a pipe, -/
theorem taken_writePipe (p : Party) (x : Fd × Bytes) (pipes : Pipes) (n : ℕ) :
    (writePipe windows p pipes x n).taken = (pipes n).taken := by
  obtain ⟨fd, bs⟩ := x
  cases fd with
  | stdout => rfl
  | sock => rfl
  | pipe fd =>
      rw [writePipe_pipe]
      obtain heq | ⟨e, heq⟩ := atEnd_cases windows (Fifo.write p bs) pipes fd n <;> rw [heq]
      exact Fifo.taken_write p bs (pipes n) e

include hpairs in
/-- **What the client writes.** -/
theorem put_foldl_writePipe {p : Party} {ws : List (Fd × Bytes)}
    (hws : ∀ x ∈ ws, ∀ n, x.1 = .pipe n → ∃ win ∈ windows, win.wrt = n) (pipes : Pipes) {rd : ℕ}
    (hrd : rd % 2 = 0) :
    (ws.foldl (writePipe windows p) pipes rd).put =
      (pipes rd).put ++ (messagesFor rd (rd + 1) ws).flatten.map (p, ·) := by
  induction ws generalizing pipes with
  | nil => simp [messagesFor]
  | cons x ws ih =>
      have hsplit := messagesFor_append rd (rd + 1) [x] ws
      rw [List.singleton_append] at hsplit
      rw [List.forall_mem_cons] at hws
      rw [List.foldl_cons, ih hws.2, put_writePipe hpairs hws.1 pipes hrd, hsplit]
      simp

/-- Nor do many writes take anything out of it. -/
theorem taken_foldl_writePipe (p : Party) (ws : List (Fd × Bytes)) (pipes : Pipes) (n : ℕ) :
    (ws.foldl (writePipe windows p) pipes n).taken = (pipes n).taken := by
  induction ws generalizing pipes with
  | nil => rfl
  | cons x ws ih => rw [List.foldl_cons, ih, taken_writePipe]

/-- Writes to the screen and to a read end. -/
theorem foldl_writePipe_of_reading {win : Window} (hwin : win ∈ windows) (p : Party)
    {ws : List (Fd × Bytes)} (hws : ∀ x ∈ ws, x.1 = .stdout ∨ x.1 = .pipe win.rd) (pipes : Pipes) :
    ws.foldl (writePipe windows p) pipes = pipes := by
  induction ws with
  | nil => rfl
  | cons x ws ih =>
      rw [List.forall_mem_cons] at hws
      have hnothing : writePipe windows p pipes x = pipes := by
        obtain ⟨fd, bs⟩ := x
        obtain ⟨rfl | rfl, -⟩ := hws
        · rfl
        · rw [writePipe_pipe, atEnd_of_pipeEnd (pipeEnd_rd hwin), Fifo.write_reading,
            Function.update_eq_self]
      rw [List.foldl_cons, hnothing]
      exact ih hws.2

end Ends

/-- A read puts nothing into one. -/
theorem put_readPipe (windows : List Window) (p : Party) (max : ℕ) (pipes : Pipes) (fd n : ℕ) :
    (readPipe windows p max pipes fd n).put = (pipes n).put := by
  unfold readPipe
  obtain heq | ⟨e, heq⟩ := atEnd_cases windows (Fifo.read p max) pipes fd n <;> rw [heq]
  exact Fifo.put_read p max (pipes n) e

/-- What a chat program reads, it takes. -/
theorem taken_readPipe {windows : List Window} {pipes : Pipes}
    (h : ∀ n, ∀ x ∈ (pipes n).taken, x.1 = .window) (max fd n : ℕ) :
    ∀ x ∈ (readPipe windows .window max pipes fd n).taken, x.1 = .window := by
  unfold readPipe
  obtain heq | ⟨e, heq⟩ := atEnd_cases windows (Fifo.read .window max) pipes fd n <;> rw [heq]
  · exact h n
  · exact Fifo.forall_taken_read max (h n) e

/-! ## The invariant -/

/-- The pipes of the windows are those of the users. -/
theorem ends_eq {d : Desk} (h : d.Tidy) :
    d.windows.map (fun win => (win.rd, win.wrt)) = d.client.users.map fun u => (u.rd, u.wrt) := by
  have hmap := congrArg (List.map Prod.snd) h.owned
  rwa [List.map_map, List.map_map] at hmap

namespace WindowRun

/-- What holds in a run: in the pipes are the messages of the client only, and only the chat
programs have taken any. -/
structure Holds (s : WindowRun) : Prop where
  run : s.run.Holds
  paired : Paired s.client
  put : ∀ rd, rd % 2 = 0 → (s.pipes rd).put =
    (messagesFor rd (rd + 1) s.client.wrote).flatten.map (.client, ·)
  taken : ∀ n, ∀ x ∈ (s.pipes n).taken, x.1 = .window
  typed : ∀ n, [] ∉ s.typed n

/-- The invariant holds at the start. -/
theorem Initial.holds {s : WindowRun} (h : s.Initial) : s.Holds := by
  obtain ⟨buf, rfl⟩ := h
  refine ⟨DeskRun.holds_withBuf buf, ⟨?_, ?_, ?_⟩, fun _ _ => rfl, ?_, fun _ => List.not_mem_nil⟩
  · show 4 % 2 = 0
    rfl
  · intro f hf
    cases hf
  · intro x hx
    cases hx
  · intro n x hx
    cases hx

/-- The ends of the pipe of a window. -/
theorem Holds.pairs {s : WindowRun} (h : s.Holds) :
    ∀ win ∈ s.windows, win.rd % 2 = 0 ∧ win.wrt = win.rd + 1 := by
  intro win hwin
  apply h.paired.ends (win.rd, win.wrt)
  have hmem : (win.rd, win.wrt) ∈ s.windows.map fun win => (win.rd, win.wrt) :=
    List.mem_map_of_mem hwin
  rwa [windows, ends_eq h.run.tidy] at hmem

section Steps

variable {slack : Slack} {s s' : WindowRun} (h : s.Holds)
include h

/-- **A step of the client.** -/
theorem Holds.step_client {e : DeskEvent} (hst : s.Step slack (.client e) s') : s'.Holds := by
  obtain ⟨hrun, htyped, -, hpipes⟩ := hst
  have hpaired := steady_paired.step h.paired hrun
  obtain ⟨ws, hws⟩ : ∃ ws, s'.client.wrote = s.client.wrote ++ ws :=
    (steady_wrote s.client.wrote).step ⟨[], (List.append_nil _).symm⟩ hrun
  have htidy := (h.run.step hrun).tidy
  have hends := ends_eq htidy
  have hpairs : ∀ win ∈ s'.windows, win.rd % 2 = 0 ∧ win.wrt = win.rd + 1 := by
    intro win hwin
    apply hpaired.ends (win.rd, win.wrt)
    rw [← hends]
    exact List.mem_map_of_mem hwin
  have hto : ∀ x ∈ ws, ∀ n, x.1 = .pipe n → ∃ win ∈ s'.windows, win.wrt = n := by
    intro x hx n hn
    have hmem : x ∈ s'.client.wrote := by
      rw [hws]
      exact List.mem_append_right _ hx
    obtain ⟨f, hf, hfn⟩ := hpaired.wrote x hmem n hn
    rw [← hends] at hf
    obtain ⟨win, hwin, rfl⟩ := List.mem_map.mp hf
    exact ⟨win, hwin, hfn⟩
  rw [reads_eq_nil h.run hrun, hws, newly_append] at hpipes
  refine ⟨h.run.step hrun, hpaired, ?_, ?_, ?_⟩
  · intro rd hrd
    rw [hpipes, put_foldl_writePipe hpairs hto _ hrd, hws, messagesFor_append,
      List.flatten_append, List.map_append]
    exact congrArg (· ++ _) (h.put rd hrd)
  · intro n
    rw [hpipes, taken_foldl_writePipe]
    exact h.taken n
  · rw [htyped]
    exact h.typed

omit h in
/-- The pipes after an iteration of a chat program: what it writes goes nowhere. -/
theorem pipes_shown {win : Window} (hwin : win ∈ s.windows) (ready : List ℕ)
    (piped typed : ReadResult) : (s.shown win ready piped typed).pipes =
      if win.rd ∈ ready then readPipe s.windows .window chatMaxline s.pipes win.rd else s.pipes :=
  foldl_writePipe_of_reading hwin .window (mem_chatIteration win.rd ready piped typed) _

omit h in
/-- What a window shows does not change the client. -/
theorem client_shown (win : Window) (ready : List ℕ) (piped typed : ReadResult) :
    (s.shown win ready piped typed).client = s.client := by
  unfold shown client
  dsimp only
  split <;> rfl

/-- **A step of a chat program.** -/
theorem Holds.step_window {win : Window} {ready : List ℕ} {piped typed : ReadResult}
    (hst : s.Step slack (.window win ready piped typed) s') : s'.Holds := by
  obtain ⟨hwin, -, -, -, htyped, rfl⟩ := hst
  have hpipes := pipes_shown hwin ready piped typed
  have hput : ∀ n, ((s.shown win ready piped typed).pipes n).put = (s.pipes n).put := by
    intro n
    rw [hpipes]
    split_ifs
    · exact put_readPipe _ _ _ _ _ n
    · rfl
  refine ⟨?_, ?_, ?_, ?_, ?_⟩
  · unfold shown
    dsimp only
    split
    · exact h.run
    · have hexits : s.run.Step slack (.exits win.wrt)
          { s.run with loop := { s.run.loop with desk := s.run.loop.desk.exit win.wrt } } := rfl
      exact h.run.step hexits
  · rw [client_shown]
    exact h.paired
  · intro rd hrd
    rw [client_shown, hput]
    exact h.put rd hrd
  · intro n
    rw [hpipes]
    split_ifs
    · exact taken_readPipe h.taken _ _ n
    · exact h.taken n
  · intro n
    have hline : [] ∉ lineTyped win.rd ready typed := by
      unfold lineTyped
      split
      · split_ifs
        · exact fun hmem => htyped.1 (List.mem_singleton.mp hmem).symm
        · exact List.not_mem_nil
      · exact List.not_mem_nil
    unfold shown
    dsimp only
    by_cases heq : n = win.rd
    · subst heq
      rw [Function.update_self]
      exact List.not_mem_append (h.typed win.rd) hline
    · rw [Function.update_of_ne heq]
      exact h.typed n

end Steps

/-- The invariant holds in every run. -/
theorem Reached.holds {slack : Slack} {s : WindowRun} (h : Reached slack s) : s.Holds := by
  refine h.invariant (fun _ hinit => hinit.holds) fun _ e _ hs _ hst => ?_
  cases e with
  | client e => exact hs.step_client hst
  | window win ready piped typed => exact hs.step_window hst

/-! ## What is lost -/

/-- The chat program of an open window can go on reading. -/
theorem goesOn_of_open {s : WindowRun} (slack : Slack) {win : Window} (hwin : win ∈ s.windows)
    (hopen : win.exited = false) (hinside : (s.pipes win.rd).inside ≠ []) :
    ∃ ready piped typed s', s.Step slack (.window win ready piped typed) s' ∧
      (s'.pipes win.rd).inside.length < (s.pipes win.rd).inside.length := by
  have hend := pipeEnd_rd hwin
  refine ⟨[win.rd], .data (((s.pipes win.rd).inside.take chatMaxline).map Prod.snd), .failed, _,
    ⟨hwin, hopen, ?_, ?_, trivial, rfl⟩, ?_⟩
  · intro fd hfd
    exact .inr (List.mem_singleton.mp hfd)
  · intro _
    unfold Returns
    rw [hend]
    exact ⟨hinside, rfl⟩
  · rw [pipes_shown hwin, if_pos (List.mem_singleton_self _)]
    unfold readPipe
    rw [atEnd_of_pipeEnd hend]
    have hpos := List.length_pos_of_ne_nil hinside
    rw [Function.update_self, Fifo.inside_read, List.length_drop]
    unfold chatMaxline
    omega

/-- **What gets through**: at every point of every run, in whatever order the client and the chat
programs take their steps, a window is lossless iff no line has been typed in it, and it has not
been closed with messages inside the pipe. -/
theorem lossless_iff (slack : Slack) {s : WindowRun} (h : Reached slack s) {win : Window}
    (hwin : win ∈ s.windows) : s.Lossless slack win ↔
      s.typed win.rd = [] ∧ (win.exited = true → (s.pipes win.rd).inside = []) := by
  have hholds := h.holds
  obtain ⟨heven, hwrt⟩ := hholds.pairs win hwin
  have hput := hholds.put win.rd heven
  rw [← hwrt] at hput
  have hlines : (s.pipes win.rd).Carries .window .client (s.typed win.rd).flatten ↔
      s.typed win.rd = [] := by
    rw [Fifo.carries_iff_of_put (by decide) hput, List.flatten_eq_nil_iff]
    constructor
    · intro hall
      apply List.eq_nil_iff_forall_not_mem.mpr
      intro line hline
      exact hholds.typed win.rd (hall line hline ▸ hline)
    · intro hnil line hline
      rw [hnil] at hline
      cases hline
  have hfrom : ∀ x ∈ (s.pipes win.rd).inside, x.1 = .client := by
    intro x hx
    have hmem : x ∈ (s.pipes win.rd).put := by
      rw [← (s.pipes win.rd).conserved]
      exact List.mem_append_right _ hx
    rw [hput] at hmem
    obtain ⟨b, -, rfl⟩ := List.mem_map.mp hmem
    rfl
  constructor
  · intro hlossless
    refine ⟨hlines.mp hlossless.lines, fun hexited => ?_⟩
    by_contra hinside
    obtain ⟨x, hx⟩ := List.exists_mem_of_ne_nil _ hinside
    obtain ⟨ready, piped, typed, s', ⟨-, hopen, -⟩, -⟩ := hlossless.goesOn ⟨x, hx, hfrom x hx⟩
    rw [hexited] at hopen
    cases hopen
  · rintro ⟨htyped, hclosed⟩
    refine ⟨Fifo.carries_of_put hput (hholds.taken win.rd), hlines.mpr htyped, ?_⟩
    rintro ⟨x, hx, -⟩
    have hinside : (s.pipes win.rd).inside ≠ [] := List.ne_nil_of_mem hx
    have hopen : win.exited = false := by
      cases hexited : win.exited with
      | false => rfl
      | true => exact absurd (hclosed hexited) hinside
    exact goesOn_of_open slack hwin hopen hinside

/-- The message is in the pipe. -/
private def opened : WindowRun where
  run := windowOpen
  pipes := windowOpen.loop.desk.client.wrote.foldl (writePipe windowOpen.loop.desk.windows .client)
    fun _ => .empty
  typed := fun _ => []

private theorem reached_opened : Reached (fun _ => 1) opened := by
  have hstart : Initial ⟨quiet, fun _ => .empty, fun _ => []⟩ := ⟨.of [], rfl⟩
  have hreads := reads_eq_nil hstart.holds.run step_windowOpen
  refine Reachable.next (.start hstart) (e := .client _) ⟨step_windowOpen, rfl, ?_, ?_⟩
  · rw [hreads]
    intro x hx
    cases hx
  · rw [hreads]
    rfl

/-- A message on its way. -/
theorem lossless_iff_opened : ∃ s : WindowRun, Reached (fun _ => 1) s ∧ ∃ win ∈ s.windows,
    (s.pipes win.rd).inside = [(.client, 104)] ∧ s.Lossless (fun _ => 1) win := by
  have hwin : (⟨5, [97], 4, 5, false, false⟩ : Window) ∈ opened.windows := List.mem_singleton_self _
  refine ⟨opened, reached_opened, _, hwin, rfl, ?_⟩
  apply (lossless_iff (fun _ => 1) reached_opened hwin).mpr
  refine ⟨rfl, fun hexited => ?_⟩
  cases hexited

/-- A line typed in a window is lost. -/
theorem not_lossless : ¬∀ slack s, Reached slack s → ∀ win ∈ s.windows, s.Lossless slack win := by
  intro hall
  have hwin : (⟨5, [97], 4, 5, false, false⟩ : Window) ∈ opened.windows := List.mem_singleton_self _
  have hstep : opened.Step (fun _ => 1)
    (.window ⟨5, [97], 4, 5, false, false⟩ [0] .failed (.data [104, 105, 10]))
      (opened.shown ⟨5, [97], 4, 5, false, false⟩ [0] .failed (.data [104, 105, 10])) :=
    ⟨hwin, rfl, fun fd hfd => .inl (List.mem_singleton.mp hfd), fun h => absurd h (by decide),
      ⟨by decide, by decide⟩, rfl⟩
  have hlines :=
    (hall (fun _ => 1) _ (Reachable.next reached_opened hstep) ⟨5, [97], 4, 5, false, false⟩
    (List.mem_singleton_self _)).lines.1
  have htaken : (opened.pipes 4).taken = [] := rfl
  have hinside : (opened.pipes 4).inside = [(.client, 104)] := rfl
  have htyped : (opened.shown ⟨5, [97], 4, 5, false, false⟩
    [0] .failed (.data [104, 105, 10])).typed 4 =
      [[104, 105, 10]] := rfl
  rw [pipes_shown hwin, if_neg (by decide)] at hlines
  dsimp only at hlines
  rw [htaken, hinside, htyped] at hlines
  simp at hlines

end WindowRun

end ME2U.System
