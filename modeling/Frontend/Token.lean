/-
# `Frontend.Token` — a kind with its text

Tokens may be built by hand with any text for any kind.  The text never decides
the kind; it is what gets rendered, and what an integer is read from.
-/
import Frontend.Kind

namespace Frontend

/-- A kind with the text it was read from. -/
structure Token where
  kind : Kind
  text : String
deriving DecidableEq

namespace Token

/-- The end of input without a text.  A lexer or a tape gives it for ever, once it is
exhausted. -/
def eof : Token :=
  ⟨.eof, ""⟩

/-- Whether a token is of a kind. -/
def is (t : Token) (k : Kind) : Bool :=
  t.kind == k

/-- One line about a token: its kind, with the text where the kind leaves it open. -/
def describe (t : Token) : String :=
  if t.kind.showsText then t.kind.name ++ " (" ++ t.text ++ ")" else t.kind.name

@[simp] theorem kind_eof : eof.kind = .eof := rfl

@[simp] theorem text_eof : eof.text = "" := rfl

theorem is_iff {t : Token} {k : Kind} : t.is k = true ↔ t.kind = k := by
  simp [is]

end Token

end Frontend
