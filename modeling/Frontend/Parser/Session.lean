/-
# `Frontend.Parser.Session` — a parser used from outside

Everything that may change a parser, as one type: the small moves, the entries
to the table, the handlers of single kinds and the whole parsing functions.
Handlers that are run by themselves open no level of their own.
-/
import Frontend.Parser.Statement

namespace Frontend.Parser

/-- What may be asked of a parser. -/
inductive Op where
  | advance
  | expect (kind : Kind)
  | skipToTerminator
  | enter
  | restore (depth : Nat)
  | report (problem : Problem)
  | setOpening (kind : Kind) (opening : Opening)
  | setJoining (kind : Kind) (power : Power) (joining : Joining)
  | setForm (kind : Kind) (form : Form)
  /-- Runs the opening that the table has for a kind. -/
  | openAs (kind : Kind)
  /-- Runs the joining that the table has for a kind. -/
  | joinAs (kind : Kind) (left : Expr) (power : Power)
  /-- Runs the form of statement that the table has for a kind. -/
  | formAs (kind : Kind)
  | expression (power : Power)
  | statement
  | exprStatement
  | program
deriving DecidableEq

/-- What a parser answers. -/
inductive Reply where
  | done
  | truth (holds : Bool)
  /-- The table has nothing for the kind. -/
  | noEntry
  | expr (e : Option Expr)
  | stmt (s : Option Stmt)
  | program (p : Program)
deriving DecidableEq

variable {σ : Type} [FiniteSource σ]

/-- Runs the opening that the table has for a kind, whatever the current token. -/
def openAs (p : Parser σ) (k : Kind) : Reply × Parser σ :=
  match p.grammar.opening k with
  | some o =>
    let r := o.run expression p
    (.expr r.1, r.2)
  | none => (.noEntry, p)

/-- Runs the joining that the table has for a kind, whatever the current token. -/
def joinAs (p : Parser σ) (k : Kind) (left : Expr) (b : Power) : Reply × Parser σ :=
  match p.grammar.joining k with
  | some j =>
    let r := j.run expression left b p
    (.expr r.1, r.2)
  | none => (.noEntry, p)

/-- Runs the form of statement that the table has for a kind, whatever the current
token. -/
def formAs (p : Parser σ) (k : Kind) : Reply × Parser σ :=
  match p.grammar.form k with
  | some f =>
    let r := f.run p
    (.stmt r.1, r.2)
  | none => (.noEntry, p)

/-- One operation. -/
def step (p : Parser σ) : Op → Reply × Parser σ
  | .advance => (.done, p.advance)
  | .expect k =>
    let r := p.expect k
    (.truth r.1, r.2)
  | .skipToTerminator => (.done, p.skipToTerminator)
  | .enter =>
    let r := p.enter
    (.truth r.1, r.2)
  | .restore d => (.done, p.restore d)
  | .report e => (.done, p.report e)
  | .setOpening k o => (.done, p.setOpening k o)
  | .setJoining k b j => (.done, p.setJoining k b j)
  | .setForm k f => (.done, p.setForm k f)
  | .openAs k => p.openAs k
  | .joinAs k left b => p.joinAs k left b
  | .formAs k => p.formAs k
  | .expression b =>
    let r := p.expression b
    (.expr r.1, r.2)
  | .statement =>
    let r := p.statement
    (.stmt r.1, r.2)
  | .exprStatement =>
    let r := p.exprStatement
    (.stmt r.1, r.2)
  | .program =>
    let r := p.program
    (.program r.1, r.2)

/-- A list of operations, with the answers in order. -/
def run (p : Parser σ) : List Op → List Reply × Parser σ
  | [] => ([], p)
  | op :: ops =>
    let first := p.step op
    let rest := first.2.run ops
    (first.1 :: rest.1, rest.2)

end Frontend.Parser
