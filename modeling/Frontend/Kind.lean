/-
# `Frontend.Kind` — the kinds of token

A token is a kind and a text, and the kind alone decides what the parser does
with it.  This module holds the twenty-seven kinds, the names they are printed
under, and the spelling of those that have only one: the marks and the reserved
words.  The lexer's table and the reserved-word lookup both read the spelling
from here, so a mark or a word is written down once.
-/

namespace Frontend

/-- What a token is, whatever its text. -/
inductive Kind where
  | illegal
  | eof
  | identifier
  | integer
  | assign
  | equals
  | bang
  | notEquals
  | less
  | greater
  | plus
  | minus
  | asterisk
  | slash
  | comma
  | semicolon
  | openParen
  | closeParen
  | openCurly
  | closeCurly
  | kwFn
  | kwLet
  | kwTrue
  | kwFalse
  | kwIf
  | kwElse
  | kwReturn
deriving DecidableEq

namespace Kind

/-- Every kind, in the order in which kinds are numbered. -/
def all : List Kind :=
  [illegal, eof, identifier, integer, assign, equals, bang, notEquals, less, greater,
    plus, minus, asterisk, slash, comma, semicolon, openParen, closeParen, openCurly,
    closeCurly, kwFn, kwLet, kwTrue, kwFalse, kwIf, kwElse, kwReturn]

/-- The number of a kind: its place in `all`. -/
def index (k : Kind) : Nat :=
  all.idxOf k

/-- The name a kind is printed under. -/
def name : Kind → String
  | illegal => "Illegal"
  | eof => "EOF"
  | identifier => "Identifier"
  | integer => "Integer"
  | assign => "Assign"
  | equals => "Equals"
  | bang => "Bang"
  | notEquals => "NotEquals"
  | less => "Less"
  | greater => "Greater"
  | plus => "Plus"
  | minus => "Minus"
  | asterisk => "Asterisk"
  | slash => "Slash"
  | comma => "Comma"
  | semicolon => "Semicolon"
  | openParen => "OpenParen"
  | closeParen => "CloseParen"
  | openCurly => "OpenCurly"
  | closeCurly => "CloseCurly"
  | kwFn => "Fn"
  | kwLet => "Let"
  | kwTrue => "True"
  | kwFalse => "False"
  | kwIf => "If"
  | kwElse => "Else"
  | kwReturn => "Return"

/-- The kind printed under a name. -/
def ofName? (s : String) : Option Kind :=
  all.find? fun k => k.name == s

/-- The only text a mark or a reserved word can have; empty for the kinds whose
text varies, and for the end of input. -/
def spelling : Kind → String
  | illegal | eof | identifier | integer => ""
  | assign => "="
  | equals => "=="
  | bang => "!"
  | notEquals => "!="
  | less => "<"
  | greater => ">"
  | plus => "+"
  | minus => "-"
  | asterisk => "*"
  | slash => "/"
  | comma => ","
  | semicolon => ";"
  | openParen => "("
  | closeParen => ")"
  | openCurly => "\x7b"
  | closeCurly => "\x7d"
  | kwFn => "fn"
  | kwLet => "let"
  | kwTrue => "true"
  | kwFalse => "false"
  | kwIf => "if"
  | kwElse => "else"
  | kwReturn => "return"

/-- The kinds that are spelled like an identifier. -/
def reserved : List Kind :=
  [kwFn, kwLet, kwTrue, kwFalse, kwIf, kwElse, kwReturn]

/-- The reserved word with this spelling, if there is one. -/
def reserved? (word : String) : Option Kind :=
  reserved.find? fun k => k.spelling == word

/-- A word is a reserved word if it is spelled like one, else an identifier. -/
def ofWord (word : String) : Kind :=
  (reserved? word).getD identifier

/-- The kinds whose text is printed beside their name, because the name does not
determine it. -/
def showsText : Kind → Bool
  | illegal | identifier | integer => true
  | _ => false

/-! ## The list of kinds is complete and its order is the numbering -/

theorem mem_all (k : Kind) : k ∈ all := by
  cases k <;> decide

theorem getElem?_all_index (k : Kind) : all[k.index]? = some k := by
  cases k <;> decide

theorem ofName?_name (k : Kind) : ofName? k.name = some k := by
  cases k <;> decide

/-- A name determines its kind. -/
theorem name_inj {k l : Kind} (h : k.name = l.name) : k = l :=
  Option.some.inj (by rw [← ofName?_name k, h, ofName?_name l])

end Kind

end Frontend
