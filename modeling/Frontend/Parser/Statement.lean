/-
# `Frontend.Parser.Statement` — statements, and programs of them

The current token decides the form of a statement, and a token that has no form
of its own begins an expression.  A statement stops at its last token, which is
its terminator if it has one; the terminator may be left out.

A statement that cannot be read is dropped, with its problem reported, and the
next one begins at the token after the last that was looked at.  So a program is
always the answer, and reading goes on until the end of input.

With values passed over, a `let` or a `return` runs on to the next terminator,
whatever stands before it.
-/
import Frontend.Lexer.Basic
import Frontend.Parser.Progress
import Frontend.Program

namespace Frontend

namespace Parser

variable {σ : Type}

section Expressions

variable [Source σ]

/-- Parses a value and the terminator behind it, if there is one. -/
def value (p : Parser σ) : Option Expr × Parser σ :=
  let e := p.expression .lowest
  (e.1, e.2.takeTerminator)

/-- Parses an expression by itself.  The terminator is taken also behind an
expression that could not be read. -/
def exprStatement (p : Parser σ) : Option Stmt × Parser σ :=
  let e := p.value
  (e.1.map (.exprStmt p.current), e.2)

end Expressions

variable [FiniteSource σ]

/-- Moves on until the current token is a terminator or the end of input. -/
def skipToTerminator (p : Parser σ) : Parser σ :=
  if p.atTerminator = true then p else p.advance.skipToTerminator
termination_by p.remaining
decreasing_by
  refine (Leads.refl p).remaining_advance_lt fun he => ‹¬ p.atTerminator = true› ?_
  simp [atTerminator, Token.is, he]

/-- Parses a `let`.  Without its name or its mark there is no statement; without a
value there still is one. -/
def letStatement (p : Parser σ) : Option Stmt × Parser σ :=
  match p.expect .identifier with
  | (false, q) => (none, q)
  | (true, q) =>
    match q.expect .assign with
    | (false, r) => (none, r)
    | (true, r) =>
      let v := if r.config.readValues = true then r.advance.value else (none, r.skipToTerminator)
      (some (.letStmt p.current (.ofToken q.current) v.1), v.2)

/-- Parses a `return`.  Directly before a terminator it has no value. -/
def returnStatement (p : Parser σ) : Option Stmt × Parser σ :=
  let q := p.advance
  let v :=
    if q.config.readValues = true ∧ q.atTerminator = false then q.value
    else (none, q.skipToTerminator)
  (some (.returnStmt p.current v.1), v.2)

end Parser

/-- Parses a statement of a form at the current token. -/
def Form.run {σ : Type} [FiniteSource σ] : Form → Parser σ → Option Stmt × Parser σ
  | letForm, p => p.letStatement
  | returnForm, p => p.returnStatement
  | exprForm, p => p.exprStatement

namespace Parser

variable {σ : Type} [FiniteSource σ]

/-- Parses the statement at the current token. -/
def statement (p : Parser σ) : Option Stmt × Parser σ :=
  match p.grammar.form p.current.kind with
  | some f => f.run p
  | none => p.exprStatement

/-! ## A statement only moves forward -/

theorem leads_value (p : Parser σ) : Leads p p.value.2 :=
  (leads_expression .lowest p).trans (leads_takeTerminator _)

theorem leads_exprStatement (p : Parser σ) : Leads p p.exprStatement.2 :=
  leads_value p

theorem leads_skipToTerminator (p : Parser σ) : Leads p p.skipToTerminator := by
  fun_induction skipToTerminator p with
  | case1 p _ => exact .refl p
  | case2 p _ ih => exact (Leads.advance p).trans ih

theorem leads_letStatement (p : Parser σ) : Leads p p.letStatement.2 := by
  have hname := leads_expect p .identifier
  unfold letStatement
  split
  · next q hq => simpa [hq] using hname
  · next q hq =>
    rw [hq] at hname
    have hmark := hname.trans (leads_expect q .assign)
    split
    · next r hr => simpa [hr] using hmark
    · next r hr =>
      rw [hr] at hmark
      dsimp only
      split
      · exact hmark.trans ((Leads.advance r).trans (leads_value _))
      · exact hmark.trans (leads_skipToTerminator r)

theorem leads_returnStatement (p : Parser σ) : Leads p p.returnStatement.2 := by
  unfold returnStatement
  dsimp only
  split
  · exact (Leads.advance p).trans (leads_value _)
  · exact (Leads.advance p).trans (leads_skipToTerminator _)

theorem leads_form (f : Form) (p : Parser σ) : Leads p (f.run p).2 := by
  cases f with
  | letForm => exact leads_letStatement p
  | returnForm => exact leads_returnStatement p
  | exprForm => exact leads_exprStatement p

theorem leads_statement (p : Parser σ) : Leads p p.statement.2 := by
  unfold statement
  split
  · exact leads_form _ p
  · exact leads_exprStatement p

/-! ## Programs -/

/-- Parses statements until the current token is the end of input. -/
def statements (p : Parser σ) : List Stmt × Parser σ :=
  if p.current.kind = .eof then ([], p)
  else
    let s := p.statement
    let rest := s.2.advance.statements
    (s.1.toList ++ rest.1, rest.2)
termination_by p.remaining
decreasing_by exact (leads_statement p).remaining_advance_lt ‹_›

/-- Parses a program: every statement that could be read. -/
def program (p : Parser σ) : Program × Parser σ :=
  let s := p.statements
  (⟨s.1⟩, s.2)

end Parser

/-! ## Parsing in one step -/

/-- A finished parse: the program, the problems, and the source as it was left. -/
structure Parsed (σ : Type) where
  program : Program
  diagnostics : Diagnostics
  source : σ

/-- Parses all that a source gives. -/
def parse {σ : Type} [FiniteSource σ] (source : σ) (config : Config) : Parsed σ :=
  let done := (Parser.ofSource source config).program
  ⟨done.1, done.2.diagnostics, done.2.source⟩

/-- Parses a text. -/
def parseText (text : String) (config : Config) : Parsed Lexer :=
  parse (Lexer.ofString text) config

end Frontend
