/-
# `Frontend.Parser.Window` — the parser's state and its small moves

The parser sees two tokens, the current one and the one after it.  It advances
by one token at a time and never goes back.  Besides the window it keeps the
levels that are open, the table it is driven by, and the problems it met.
-/
import Frontend.Grammar
import Frontend.Parser.Config
import Frontend.Problem
import Frontend.Source

namespace Frontend

/-- The state of a parse over a source of tokens. -/
structure Parser (σ : Type) where
  /-- Where the next token behind the window comes from. -/
  source : σ
  /-- The token looked at. -/
  current : Token
  /-- The token after it. -/
  peek : Token
  config : Config
  /-- The levels of expressions that are open. -/
  depth : Nat
  grammar : Grammar
  diagnostics : Diagnostics

namespace Parser

variable {σ : Type}

/-- Records a problem and goes on. -/
def report (p : Parser σ) (e : Problem) : Parser σ :=
  { p with diagnostics := p.diagnostics.report e }

/-- The power with which the current token binds. -/
def currentPower (p : Parser σ) : Power :=
  p.grammar.power p.current.kind

/-- The power with which the next token binds. -/
def peekPower (p : Parser σ) : Power :=
  p.grammar.power p.peek.kind

/-- The levels that may still be opened. -/
def levels (p : Parser σ) : Nat :=
  p.config.maxDepth - p.depth

/-- Opens a level, if the limit allows; otherwise reports that it does not. -/
def enter (p : Parser σ) : Bool × Parser σ :=
  if p.config.maxDepth ≤ p.depth then (false, p.report (.tooDeep p.config.maxDepth))
  else (true, { p with depth := p.depth + 1 })

/-- Sets the number of open levels, as it was before some were opened. -/
def restore (p : Parser σ) (depth : Nat) : Parser σ :=
  { p with depth }

/-- Lets a kind open expressions. -/
def setOpening (p : Parser σ) (k : Kind) (o : Opening) : Parser σ :=
  { p with grammar := p.grammar.setOpening k o }

/-- Lets a kind join expressions, with a power. -/
def setJoining (p : Parser σ) (k : Kind) (b : Power) (j : Joining) : Parser σ :=
  { p with grammar := p.grammar.setJoining k b j }

/-- Lets a kind begin a form of statement. -/
def setForm (p : Parser σ) (k : Kind) (f : Form) : Parser σ :=
  { p with grammar := p.grammar.setForm k f }

/-! ## Moving the window -/

variable [Source σ]

/-- A parser at the start of a source: its window holds the first two tokens. -/
def ofSource (source : σ) (config : Config) : Parser σ :=
  let first := Source.next source
  let second := Source.next first.2
  { source := second.2
    current := first.1
    peek := second.1
    config
    depth := 0
    grammar := .standard
    diagnostics := .empty }

/-- Moves the window on by one token. -/
def advance (p : Parser σ) : Parser σ :=
  let pulled := Source.next p.source
  { p with source := pulled.2, current := p.peek, peek := pulled.1 }

/-- Moves on if the next token is of the kind that is due.  If it is not, reports
so and leaves the window where it is. -/
def expect (p : Parser σ) (k : Kind) : Bool × Parser σ :=
  if p.peek.kind = k then (true, p.advance) else (false, p.report (.unexpected k p.peek.kind))

/-- Moves onto a terminator if the next token is one. -/
def takeTerminator (p : Parser σ) : Parser σ :=
  if p.peek.kind = .semicolon then p.advance else p

/-- Whether the current token is one that a statement cannot go beyond. -/
def atTerminator (p : Parser σ) : Bool :=
  p.current.is .semicolon || p.current.is .eof

end Parser

end Frontend
