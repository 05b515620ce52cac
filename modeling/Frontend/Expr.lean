/-
# `Frontend.Expr` — expressions and their written form

Every node keeps the token it was read from.  Written out, each operator stands
in parentheses with its operands, so the written form shows the shape of the
tree and groups the same way when it is read again; integers keep the text they
were written with.
-/
import Frontend.Token

namespace Frontend

/-- A name, as it is used or bound. -/
structure Ident where
  token : Token
  value : String
deriving DecidableEq

namespace Ident

/-- The name that a token's text spells. -/
def ofToken (t : Token) : Ident :=
  ⟨t, t.text⟩

end Ident

/-- Expressions. -/
inductive Expr where
  | ident (id : Ident)
  | integer (token : Token) (value : Int)
  | unary (token : Token) (operator : String) (operand : Expr)
  | binary (token : Token) (operator : String) (left right : Expr)
deriving DecidableEq

namespace Expr

/-- The token that a node was read from: of an operator, the operator's own. -/
def token : Expr → Token
  | ident id => id.token
  | integer t _ => t
  | unary t _ _ => t
  | binary t _ _ _ => t

/-- The text of a node's own token. -/
def literal (e : Expr) : String :=
  e.token.text

/-- The written form of an expression. -/
def render : Expr → String
  | ident id => id.value
  | integer t _ => t.text
  | unary _ op e => "(" ++ op ++ e.render ++ ")"
  | binary _ op l r => "(" ++ l.render ++ " " ++ op ++ " " ++ r.render ++ ")"

/-- The number of edges on the longest way from the root to a leaf. -/
def height : Expr → Nat
  | ident _ => 0
  | integer _ _ => 0
  | unary _ _ e => e.height + 1
  | binary _ _ l r => max l.height r.height + 1

end Expr

end Frontend
