/-
# `Frontend.Lexer.Session` — a lexer used from outside

A lexer may be asked for tokens, moved and given tokens in any order, and a copy
of it may be kept and returned to.  A session is a lexer with the copies kept so
far; nothing that happens to the lexer changes a copy.
-/
import Frontend.Lexer.Basic

namespace Frontend.Lexer

/-- What may be asked of a lexer. -/
inductive Op where
  | next
  | advance (bytes : Nat)
  | push (token : Token)
  | remainder
  /-- Keeps a copy. -/
  | save
  /-- Returns to a copy, counted from the first one kept. -/
  | load (copy : Nat)
deriving DecidableEq

/-- What a lexer answers. -/
inductive Reply where
  | done
  | token (t : Token)
  | text (s : String)
  /-- There is no text to be read where the lexer stands. -/
  | noText
deriving DecidableEq

/-- A lexer with the copies kept of it. -/
structure Session where
  lexer : Lexer
  saved : Array Lexer

namespace Session

/-- A session with a new lexer. -/
def start (l : Lexer) : Session :=
  ⟨l, #[]⟩

/-- One operation. -/
def step (s : Session) : Op → Reply × Session
  | .next =>
    match s.lexer.next? with
    | some (t, l) => (.token t, { s with lexer := l })
    | none => (.noText, s)
  | .advance n => (.done, { s with lexer := s.lexer.advance n })
  | .push t => (.done, { s with lexer := s.lexer.push t })
  | .remainder =>
    match s.lexer.remainder? with
    | some text => (.text text, s)
    | none => (.noText, s)
  | .save => (.done, { s with saved := s.saved.push s.lexer })
  | .load i => (.done, { s with lexer := s.saved[i]?.getD s.lexer })

/-- A list of operations, with the answers in order. -/
def run (s : Session) : List Op → List Reply × Session
  | [] => ([], s)
  | op :: ops =>
    let first := s.step op
    let rest := first.2.run ops
    (first.1 :: rest.1, rest.2)

end Session

end Frontend.Lexer
