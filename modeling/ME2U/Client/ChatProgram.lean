import ME2U.Client.Login

/-!
# The chat program

What runs in a window. It is given the two ends of its pipe, shows what it reads from the one, and
writes what is typed to the same one.

* `chatIteration`: one iteration of its loop, with what `select` and the reads return.
* `mem_chatIteration`: it writes to the screen, and to the descriptor that it reads from.
-/

namespace ME2U.Client

/-! ## The loop -/

/-- Source: `chat.h` (line 11) -/
def chatMaxline : ℕ := 5120

/-- Source: `chat.h` (lines 16–18) -/
def sentMsgC : Bytes := 27 :: encode ['[', '1', ';', '3', '2', 'm']
@[inherit_doc sentMsgC] def recvMsgC : Bytes := 27 :: encode ['[', '1', ';', '3', '3', 'm']
@[inherit_doc sentMsgC] def defaultC : Bytes := 27 :: encode ['[', '0', 'm']

/-- A computation of the chat program; the state is what it has written. -/
abbrev WindowM (α : Type) := Eff (List (Fd × Bytes)) Halt α

/-- `write(fd, bs, n)` of all bytes. -/
def windowWrite (fd : Fd) (bs : Bytes) : WindowM Unit := Eff.modify (· ++ [(fd, bs)])

/-- Source: `chat.c` `write_to_screen` (lines 58–63) -/
def writeToScreen (buf arrow color : Bytes) : WindowM Unit := do
  windowWrite .stdout color
  windowWrite .stdout arrow
  windowWrite .stdout buf
  windowWrite .stdout defaultC

/-- `buf` after a `read` into it. -/
def chatBuf : ReadResult → Block
  | .data b => textBlock b (chatMaxline - b.length)
  | _ => textBlock [] chatMaxline

/-- An iteration in which `select` leaves `ready` in `rset`. `rd` is the first argument of the
program; the second is only watched.
Source: `chat.c` `main` (lines 22–47) -/
def chatIteration (rd : ℕ) (ready : List ℕ) (piped typed : ReadResult) : WindowM Unit :=
  if rd ∈ ready then
    match piped with
    | .eof => Eff.stop (.exit 0)
    | r => do
        let buf ← mem (cstr (chatBuf r))
        writeToScreen buf (encode ['>', ' ']) recvMsgC
  else if 0 ∈ ready then
    match typed with
    | .eof => Eff.stop (.exit 0)
    | r => do
        let buf ← mem (cstr (chatBuf r))
        writeToScreen buf (encode ['<', ' ']) sentMsgC
        windowWrite (.pipe rd) buf
  else pure ()

/-! ## What it does -/

/-- **Where the chat program writes**: to the screen, and to the descriptor that it reads from. -/
theorem mem_chatIteration (rd : ℕ) (ready : List ℕ) (piped typed : ReadResult) :
    ∀ x ∈ ((chatIteration rd ready piped typed).run []).2, x.1 = .stdout ∨ x.1 = .pipe rd := by
  have hwrite : ∀ fd bs, fd = .stdout ∨ fd = .pipe rd →
      Eff.Keeps (fun ws => ∀ x ∈ ws, x.1 = .stdout ∨ x.1 = .pipe rd) (windowWrite fd bs) := by
    intro fd bs hfd
    refine .modify fun ws hws => ?_
    rw [List.forall_mem_append, List.forall_mem_singleton]
    exact ⟨hws, hfd⟩
  have hscreen : ∀ buf arrow color,
      Eff.Keeps (fun ws => ∀ x ∈ ws, x.1 = .stdout ∨ x.1 = .pipe rd)
          (writeToScreen buf arrow color) :=
    fun buf arrow color => .bind (hwrite _ _ (.inl rfl)) fun _ =>
        .bind (hwrite _ _ (.inl rfl)) fun _ =>
      .bind (hwrite _ _ (.inl rfl)) fun _ => hwrite _ _ (.inl rfl)
  have hkeeps : Eff.Keeps (fun ws => ∀ x ∈ ws, x.1 = .stdout ∨ x.1 = .pipe rd)
      (chatIteration rd ready piped typed) := by
    refine .ite (fun _ => ?_) fun _ => .ite (fun _ => ?_) fun _ => .pure ()
    · cases piped with
      | eof => exact .stop _
      | failed => exact .bind (.lift _) fun _ => hscreen _ _ _
      | data b => exact .bind (.lift _) fun _ => hscreen _ _ _
    · cases typed with
      | eof => exact .stop _
      | failed =>
          exact .bind (.lift _) fun _ => .bind (hscreen _ _ _) fun _ => hwrite _ _ (.inr rfl)
      | data b =>
          exact .bind (.lift _) fun _ => .bind (hscreen _ _ _) fun _ => hwrite _ _ (.inr rfl)
  apply hkeeps
  intro x hx
  cases hx

end ME2U.Client
