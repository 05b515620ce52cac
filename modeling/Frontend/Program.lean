/-
# `Frontend.Program` — statements and programs

A program is a list of statements.  Written out it has a statement on each line:
a newline keeps two statements apart where the terminator was left out.
-/
import Frontend.Expr

namespace Frontend

/-- Statements.  A `let` or a `return` may be without its value, because values
were passed over or because the value could not be read. -/
inductive Stmt where
  | letStmt (token : Token) (name : Ident) (value : Option Expr)
  | returnStmt (token : Token) (value : Option Expr)
  /-- An expression by itself, with the first token it was read from. -/
  | exprStmt (token : Token) (expr : Expr)
deriving DecidableEq

namespace Stmt

/-- The token that a statement begins with. -/
def token : Stmt → Token
  | letStmt t _ _ => t
  | returnStmt t _ => t
  | exprStmt t _ => t

/-- The text of a statement's first token. -/
def literal (s : Stmt) : String :=
  s.token.text

/-- The written form of a value that may be missing. -/
def renderValue : Option Expr → String
  | some e => e.render
  | none => ""

/-- The written form of a statement.  Only an expression by itself is written
without a terminator. -/
def render : Stmt → String
  | letStmt t name value => t.text ++ " " ++ name.value ++ " = " ++ renderValue value ++ ";"
  | returnStmt t value => t.text ++ " " ++ renderValue value ++ ";"
  | exprStmt _ e => e.render

end Stmt

/-- A program: its statements in order. -/
structure Program where
  statements : List Stmt
deriving DecidableEq

namespace Program

/-- Texts on lines of their own, with no newline after the last. -/
def joinLines : List String → String
  | [] => ""
  | [l] => l
  | l :: ls => l ++ "\n" ++ joinLines ls

/-- The written form of a program. -/
def render (p : Program) : String :=
  joinLines (p.statements.map Stmt.render)

/-- How many statements there are. -/
def size (p : Program) : Nat :=
  p.statements.length

/-- Whether there are none. -/
def isEmpty (p : Program) : Bool :=
  p.statements.isEmpty

/-- The text of the first token; empty for a program without statements. -/
def literal (p : Program) : String :=
  match p.statements with
  | [] => ""
  | s :: _ => s.literal

end Program

end Frontend
