import ME2U.Client.Input
import ME2U.Client.Login
import ME2U.Server.Requests

/-!
# What is on its way between a client and the server

A connection carries what one side writes to what the other side reads, in order. What a side wrote
in a step is what is new in its log.

* `dropBytes`: the frames on their way after some bytes of them were read; `flatten_dropBytes`,
  `dropBytes_cons`.
* `newly`, `delivered`, `sockWrites`: what is new in a log, and what of it is on its way.
-/

namespace ME2U.System

open Client (Fd)
open Server (Conn World Sent)

/-- What was appended to a log. -/
def newly {α : Type} (old new : List α) : List α := new.drop old.length

@[simp] theorem newly_append {α : Type} (l x : List α) : newly l (l ++ x) = x := by simp [newly]

@[simp] theorem newly_self {α : Type} (l : List α) : newly l l = [] := by simp [newly]

/-- The frames that went out to a connection. -/
def delivered (conn : Conn) (sent : List Sent) : List Bytes :=
  (sent.filter fun s => s.conn == conn && s.delivered).map Sent.frame

@[simp] theorem delivered_nil (conn : Conn) : delivered conn [] = [] := rfl

theorem eq_of_mem_delivered_singleton {conn : Conn} {s : Sent} {f : Bytes}
    (h : f ∈ delivered conn [s]) :
    f = s.frame := by
  obtain ⟨t, ht, rfl⟩ := List.mem_map.mp h
  rw [List.mem_singleton.mp (List.mem_of_mem_filter ht)]

/-- What was written to the socket. -/
def sockWrites (wrote : List (Fd × Bytes)) : List Bytes :=
  (wrote.filter fun w => w.1 = .sock).map Prod.snd

theorem mem_sockWrites {wrote : List (Fd × Bytes)} {f : Bytes} :
    f ∈ sockWrites wrote ↔ (.sock, f) ∈ wrote := by
  simp only [sockWrites, List.mem_map, List.mem_filter, decide_eq_true_eq]
  constructor
  · rintro ⟨⟨fd, g⟩, ⟨hmem, rfl⟩, rfl⟩
    exact hmem
  · exact fun h => ⟨(.sock, f), ⟨h, rfl⟩, rfl⟩

/-- Where all that was written to the socket since `old` is of a kind, the next write keeps it so if
it goes elsewhere or is of that kind. -/
theorem exists_wrote_append {p : Bytes → Prop} {old wrote : List (Fd × Bytes)}
    (h : ∃ ws, wrote = old ++ ws ∧ ∀ f ∈ sockWrites ws, p f) {fd : Fd} {bs : Bytes}
    (hbs : fd = .sock → p bs) :
    ∃ ws, wrote ++ [(fd, bs)] = old ++ ws ∧ ∀ f ∈ sockWrites ws, p f := by
  obtain ⟨ws, hws, hall⟩ := h
  refine ⟨ws ++ [(fd, bs)], by rw [hws, List.append_assoc], fun f hf => ?_⟩
  rw [mem_sockWrites, List.mem_append, List.mem_singleton, Prod.mk.injEq] at hf
  rcases hf with hf | ⟨rfl, rfl⟩
  · exact hall f (mem_sockWrites.mpr hf)
  · exact hbs rfl

/-- A text with a space that ends in the ending does so behind the space. -/
theorem exists_of_append_space_eq {a b rest : Bytes} (h : a ++ 32 :: b = rest ++ Client.ending) :
    ∃ c, b = c ++ Client.ending ∧ rest = a ++ 32 :: c := by
  have hsuf : Client.ending <:+ a ++ 32 :: b := ⟨rest, h.symm⟩
  rw [isSuffix_append_cons_iff (by decide)] at hsuf
  obtain ⟨c, rfl⟩ := hsuf
  refine ⟨c, rfl, ?_⟩
  have hcancel : rest ++ Client.ending = a ++ 32 :: c ++ Client.ending := by
    rw [← h]
    simp
  exact List.append_cancel_right hcancel

/-- The frames on their way when `n` bytes of them have been read. -/
def dropBytes : List Bytes → ℕ → List Bytes
  | [], _ => []
  | f :: fs, n => if n < f.length then f.drop n :: fs else dropBytes fs (n - f.length)

/-- What is left is the rest of the stream. -/
theorem flatten_dropBytes (fs : List Bytes) (n : ℕ) :
    (dropBytes fs n).flatten = fs.flatten.drop n := by
  induction fs generalizing n with
  | nil => simp [dropBytes]
  | cons f fs ih =>
      unfold dropBytes
      rw [List.flatten_cons, List.drop_append]
      split
      · next h =>
          rw [List.flatten_cons, Nat.sub_eq_zero_of_le h.le, List.drop_zero]
      · next h =>
          rw [ih, List.drop_eq_nil_of_le (Nat.not_lt.mp h), List.nil_append]

/-- Nothing is taken. -/
theorem dropBytes_zero {fs : List Bytes} (h : ∀ f ∈ fs, f ≠ []) : dropBytes fs 0 = fs := by
  cases fs with
  | nil => rfl
  | cons f fs => simp [dropBytes, List.length_pos_iff.mpr (h f (by simp))]

/-- A read that stays in the first frame. -/
theorem dropBytes_cons {f b : Bytes} {fs : List Bytes} (hfs : ∀ g ∈ fs, g ≠ [])
    (hread : b <+: (f :: fs).flatten) (hin : b.length ≤ f.length) :
    ∃ rest, f = b ++ rest ∧ dropBytes (f :: fs) b.length = if rest = [] then fs else rest ::
    fs := by
  have hpre : b <+: f := List.prefix_of_prefix_length_le hread (List.prefix_append f _) hin
  obtain ⟨rest, rfl⟩ := hpre
  refine ⟨rest, rfl, ?_⟩
  rw [dropBytes]
  by_cases hrest : rest = []
  · subst hrest
    simp [dropBytes_zero hfs]
  · have hpos := List.length_pos_iff.mpr hrest
    rw [if_neg hrest, if_pos (by rw [List.length_append]; omega), List.drop_left]

end ME2U.System
