/-
# `Frontend.Source` — where tokens are pulled from

The parser pulls one token at a time and never asks how many there are.  A
source therefore needs one operation only, and it has to answer for ever: once
it has nothing left every token that it gives is an end of input, and what text
that has is its own affair.

A source may go on without end.  Parsing one expression stops all the same,
because the nesting limit bounds it; reading a whole program does not, so it is
defined for the sources that say how much they have left.

An end of input may also stand in the middle: the source goes on behind it.
-/
import Frontend.Token

namespace Frontend

/-- Anything that tokens can be pulled from. -/
class Source (σ : Type) where
  /-- The next token, and the source without it. -/
  next : σ → Token × σ

/-- A source that gives only finitely many tokens, and then ends of input for ever,
with whatever text. -/
class FiniteSource (σ : Type) extends Source σ where
  /-- A bound on the tokens still to come. -/
  left : σ → Nat
  left_next_lt : ∀ s, left s ≠ 0 → left (next s).2 < left s
  next_of_left_eq_zero : ∀ s, left s = 0 → (next s).1.kind = .eof
  left_next_of_left_eq_zero : ∀ s, left s = 0 → left (next s).2 = 0

namespace Source

variable {σ : Type} [Source σ]

/-- A source without its first tokens. -/
def drop : Nat → σ → σ
  | 0, s => s
  | n + 1, s => drop n (next s).2

/-- The token that comes after so many others. -/
def get (s : σ) (n : Nat) : Token :=
  (next (drop n s)).1

@[simp] theorem drop_zero (s : σ) : drop 0 s = s := rfl

theorem drop_succ (n : Nat) (s : σ) : drop (n + 1) s = drop n (next s).2 := rfl

theorem drop_drop (m n : Nat) (s : σ) : drop m (drop n s) = drop (n + m) s := by
  induction n generalizing s with
  | zero => simp
  | succ n ih => rw [drop_succ, ih, Nat.succ_add, drop_succ]

theorem next_drop (n : Nat) (s : σ) : (next (drop n s)).2 = drop (n + 1) s := by
  rw [← drop_drop 1 n s]
  rfl

end Source

/-! ## Tokens that are already there -/

/-- A source over tokens read beforehand. -/
structure Tape where
  tokens : List Token
deriving DecidableEq

namespace Tape

/-- The first token of a tape, and the rest of it. -/
def next : Tape → Token × Tape
  | ⟨[]⟩ => (.eof, ⟨[]⟩)
  | ⟨t :: ts⟩ => (t, ⟨ts⟩)

instance : FiniteSource Tape where
  next := next
  left s := s.tokens.length
  left_next_lt
    | ⟨[]⟩, h => absurd rfl h
    | ⟨_ :: ts⟩, _ => Nat.lt_succ_self ts.length
  next_of_left_eq_zero
    | ⟨[]⟩, _ => rfl
  left_next_of_left_eq_zero
    | ⟨[]⟩, _ => rfl

end Tape

end Frontend
