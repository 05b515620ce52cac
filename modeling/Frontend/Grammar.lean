/-
# `Frontend.Grammar` — what each kind of token may do

The parser is driven by a table that may be extended while it runs.  A kind may
open an expression, may join a finished expression to what follows, binds with a
certain power when it joins, and may begin a form of statement of its own.

Opening and joining are separate: a minus does both.  So are joining and binding
power, but a joining is only ever entered together with a power, and a kind that
joins nothing keeps the lowest power, at which an expression ends.
-/
import Frontend.Kind
import Frontend.Power

namespace Frontend

/-- The ways in which a token opens an expression. -/
inductive Opening where
  /-- It is a name. -/
  | ident
  /-- It is an integer. -/
  | integer
  /-- It is an operator before its operand. -/
  | unary
  /-- It opens a group that a closing parenthesis ends. -/
  | group
deriving DecidableEq

/-- The ways in which a token joins the expression on its left to what follows. -/
inductive Joining where
  /-- It is an operator between its operands. -/
  | binary
deriving DecidableEq

/-- The forms of statement. -/
inductive Form where
  | letForm
  | returnForm
  | exprForm
deriving DecidableEq

/-- The parser's table. -/
structure Grammar where
  opening : Kind → Option Opening
  joining : Kind → Option Joining
  power : Kind → Power
  form : Kind → Option Form

namespace Grammar

/-- A table in which no kind does anything. -/
def empty : Grammar where
  opening _ := none
  joining _ := none
  power _ := .lowest
  form _ := none

/-- Lets a kind open expressions.  Its power stays: a token that only opens still
ends the expression before it. -/
def setOpening (g : Grammar) (k : Kind) (o : Opening) : Grammar :=
  { g with opening := fun l => if l = k then some o else g.opening l }

/-- Lets a kind join expressions, with a power. -/
def setJoining (g : Grammar) (k : Kind) (b : Power) (j : Joining) : Grammar :=
  { g with
    joining := fun l => if l = k then some j else g.joining l
    power := fun l => if l = k then b else g.power l }

/-- Lets a kind begin a form of statement. -/
def setForm (g : Grammar) (k : Kind) (f : Form) : Grammar :=
  { g with form := fun l => if l = k then some f else g.form l }

/-- The table that a new parser has. -/
def standard : Grammar where
  opening
    | .identifier => some .ident
    | .integer => some .integer
    | .bang | .minus => some .unary
    | .openParen => some .group
    | _ => none
  joining
    | .equals | .notEquals | .less | .greater | .plus | .minus | .asterisk | .slash =>
      some .binary
    | _ => none
  power
    | .equals | .notEquals => .equality
    | .less | .greater => .comparison
    | .plus | .minus => .sum
    | .asterisk | .slash => .product
    | _ => .lowest
  form
    | .kwLet => some .letForm
    | .kwReturn => some .returnForm
    | _ => none

theorem opening_standard_atom {k : Kind} :
    (standard.opening k = some .ident → k = .identifier) ∧
      (standard.opening k = some .integer → k = .integer) := by
  cases k <;> decide

theorem form_standard_eq_some {k : Kind} :
    (standard.form k = some .letForm → k = .kwLet) ∧
      (standard.form k = some .returnForm → k = .kwReturn) := by
  cases k <;> decide

end Grammar

end Frontend
