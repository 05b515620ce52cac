/-
# `Frontend.Parser.Expression` — expressions by binding power

An expression is opened by its first token and then takes in, from left to
right, every operator that binds tighter than the power it is parsed at.  The
operand after an operator is parsed at the operator's own power, so equal powers
group to the left; an operand before which an operator stands is parsed at the
power of such operators.

Every expression, and every operator taken in, opens a level; an expression
closes the levels it opened when it is done.  The levels that may still be
opened are therefore what every step of the recursion uses up, and parsing an
expression ends over any source, one without end included.  At the limit the
problem is reported and there is no expression.
-/
import Frontend.Expr
import Frontend.Numeral.Basic
import Frontend.Parser.Window

namespace Frontend

variable {σ : Type} [Source σ]

/-- Parses an operand that takes in what binds tighter than a power. -/
abbrev Operand (σ : Type) : Type :=
  Power → Parser σ → Option Expr × Parser σ

/-- Opens an expression at the current token and stops at its last token. -/
def Opening.run (operand : Operand σ) : Opening → Parser σ → Option Expr × Parser σ
  | ident, p => (some (.ident (.ofToken p.current)), p)
  | integer, p =>
    match Numeral.read? p.current.text with
    | some v => (some (.integer p.current v), p)
    | none => (none, p.report (.notAnInteger p.current.text))
  | unary, p =>
    match operand .unary p.advance with
    | (some e, q) => (some (.unary p.current p.current.text e), q)
    | (none, q) => (none, q)
  | group, p =>
    match operand .lowest p.advance with
    | (some e, q) =>
      match q.expect .closeParen with
      | (true, r) => (some e, r)
      | (false, r) => (none, r)
    | (none, q) => (none, q)

/-- Joins an expression to what follows the current token, which binds with a
power, and stops at the last token of that. -/
def Joining.run (operand : Operand σ) (left : Expr) (b : Power) :
    Joining → Parser σ → Option Expr × Parser σ
  | binary, p =>
    match operand b p.advance with
    | (some right, q) => (some (.binary p.current p.current.text left right), q)
    | (none, q) => (none, q)

section Run

variable {operand : Operand σ} {p q : Parser σ}

/-- With or without an answer, an operator in front ends where its operand ends. -/
theorem Opening.run_unary_snd :
    (unary.run operand p).2 = (operand .unary p.advance).2 := by
  simp only [run]
  split <;> next h => rw [h]

theorem Opening.run_group_snd_of_some {e : Expr} (h : operand .lowest p.advance = (some e, q)) :
    (group.run operand p).2 = (q.expect .closeParen).2 := by
  simp only [run, h]
  split <;> next h => rw [h]

theorem Opening.run_group_snd_of_none (h : operand .lowest p.advance = (none, q)) :
    (group.run operand p).2 = q := by
  simp only [run, h]

theorem Joining.run_binary_snd {left : Expr} {b : Power} :
    (binary.run operand left b p).2 = (operand b p.advance).2 := by
  simp only [run]
  split <;> next h => rw [h]

end Run

namespace Parser

mutual

/-- Parses an expression with so many levels to open. -/
def expressionWithin : Nat → Operand σ
  | 0, _, p => (none, p.report (.tooDeep p.config.maxDepth))
  | n + 1, b, p =>
    match p.grammar.opening p.current.kind with
    | none => (none, p.report (.noOpening p.current.kind))
    | some o =>
      match o.run (expressionWithin n) p with
      | (some left, q) => joinWithin n b left q
      | (none, q) => (none, q)

/-- Takes in the operators that follow an expression, with so many levels to
open, as long as they bind tighter than a power. -/
def joinWithin : Nat → Power → Expr → Parser σ → Option Expr × Parser σ
  | n, b, left, p =>
    if p.peek.kind = .semicolon ∨ p.peekPower ≤ b then (some left, p)
    else
      match p.grammar.joining p.peek.kind with
      | none => (some left, p)
      | some j =>
        match n with
        | 0 => (none, p.report (.tooDeep p.config.maxDepth))
        | n + 1 =>
          match j.run (expressionWithin n) left p.peekPower p.advance with
          | (some joined, q) => joinWithin n b joined q
          | (none, q) => (none, q)

end

/-- Parses an expression that takes in what binds tighter than a power, and stops
at its last token. -/
def expression (b : Power) (p : Parser σ) : Option Expr × Parser σ :=
  expressionWithin p.levels b p

end Parser

end Frontend
