import ME2U.Found.Effect
import ME2U.Protocol

/-!
# The server's state and effects

`server.py` keeps one list of users, shared by the handler threads, and talks to connections. A
`World` is that list, which connections can still be sent to, and everything that was passed to
`send` so far, with whether it went out. The server's functions are computations on a `World`
that may raise an exception (`Py`); what they did before raising stays done.

`print` is taken not to fail and is left out. Its arguments are the arguments of the `send` that
follows it, so evaluating them once raises what evaluating them twice does.
-/

namespace ME2U.Server

/-- A connection object, as `accept` returns it. -/
abbrev Conn := ℕ

/-- A peer address, as `accept` returns it. -/
abbrev Addr := ℕ

/-- An entry of the registry.
Source: `server.py` `User` (lines 13–17) -/
structure User where
  /-- The name given in the `IAM` request. -/
  name : Str
  /-- The connection of the user. -/
  conn : Conn
  /-- The peer address of the connection. -/
  addr : Addr
  deriving DecidableEq

/-- The exceptions the server's functions raise. -/
inductive PyExc
  /-- `bytes.decode` of bytes that are not UTF-8. -/
  | unicodeDecodeError
  /-- Unpacking a list of one element into two names. -/
  | valueError
  /-- `str + None`. -/
  | typeError
  /-- An attribute of `None`. -/
  | attributeError
  /-- `send` or `recv` on a closed connection. -/
  | osError
  deriving DecidableEq

/-- A byte string that was passed to `send`. -/
structure Sent where
  /-- The connection it was sent on. -/
  conn : Conn
  /-- The bytes. -/
  frame : Bytes
  /-- Whether the connection was open, so that they went out. -/
  delivered : Bool
  deriving DecidableEq

/-- What the handler threads share. -/
structure World where
  /-- The registry. Source: `server.py` `users` (line 20) -/
  users : List User
  /-- Whether a connection can be sent to and received from. -/
  isOpen : Conn → Bool
  /-- Everything passed to `send` so far, oldest first. -/
  sent : List Sent

/-- A computation of the server. -/
abbrev Py (α : Type) := Eff World PyExc α

/-! ## Primitive effects -/

/-- `conn.send(frame)`. -/
def send (conn : Conn) (frame : Bytes) : Py Unit := do
  let w ← Eff.get
  Eff.modify fun w => { w with sent := w.sent ++ [⟨conn, frame, w.isOpen conn⟩] }
  if w.isOpen conn then pure () else Eff.stop .osError

/-- `conn.close()`. -/
def close (conn : Conn) : Py Unit :=
  Eff.modify fun w => { w with isOpen := Function.update w.isOpen conn false }

/-- The world after something was passed to `send`. -/
def World.logged (w : World) (conn : Conn) (frame : Bytes) : World :=
  { w with sent := w.sent ++ [⟨conn, frame, w.isOpen conn⟩] }

@[simp] theorem World.logged_users (w : World) (c : Conn) (f : Bytes) :
    (w.logged c f).users = w.users := rfl

@[simp] theorem World.logged_isOpen (w : World) (c : Conn) (f : Bytes) :
    (w.logged c f).isOpen = w.isOpen := rfl

@[simp] theorem World.logged_sent (w : World) (c : Conn) (f : Bytes) :
    (w.logged c f).sent = w.sent ++ [⟨c, f, w.isOpen c⟩] := rfl

/-- What `send` does: it logs, and raises on a closed connection. -/
theorem run_send (c : Conn) (f : Bytes) (w : World) :
    (send c f).run w = (if w.isOpen c then .ok () else .error .osError, w.logged c f) := by
  simp only [send, Eff.run_get_bind, Eff.run_modify_bind]
  split <;> rfl

/-- A send succeeds on an open connection and is logged. -/
theorem run_send_eq_ok_iff {c : Conn} {f : Bytes} {u : Unit} {w w' : World} :
    (send c f).run w = (.ok u, w') ↔ w.isOpen c = true ∧ w' = w.logged c f := by
  rw [run_send]
  by_cases h : w.isOpen c = true
  · simp [h, eq_comm (a := w')]
  · simp [h]

theorem run_send_of_isOpen {c : Conn} {w : World} (h : w.isOpen c = true) (f : Bytes) :
    (send c f).run w = (.ok (), w.logged c f) := by
  rw [run_send, if_pos h]

theorem run_send_bind_of_isOpen {c : Conn} {w : World} (h : w.isOpen c = true) (f : Bytes)
    {α : Type} (k : Unit → Py α) : (send c f >>= k).run w = (k ()).run (w.logged c f) :=
  Eff.run_bind_ok (run_send_of_isOpen h f) k

/-- Whatever `send` does, it keeps a predicate that logging keeps. -/
theorem keeps_send {I : World → Prop} {c : Conn} {f : Bytes} (h : ∀ w, I w → I (w.logged c f)) :
    Eff.Keeps I (send c f) := by
  intro w hw
  rw [run_send]
  exact h w hw

end ME2U.Server
