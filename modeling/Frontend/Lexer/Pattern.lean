/-
# `Frontend.Lexer.Pattern` — the shapes that source text is cut into

A pattern takes a stretch from the front of a text; taking nothing means that it
does not match there.  The table lists the patterns in order, and the first one
that matches decides.  The order is what tells `==` from `=`, `!=` from `!` and a
comment from a slash.  Words, digits and marks are ASCII; only blanks reach
beyond it.
-/
import Frontend.Kind
import Frontend.Numeral.Radix
import Frontend.Text.Blank

namespace Frontend

/-- Whether a word may begin with a character. -/
def isWordStart (c : Char) : Bool :=
  ('a' ≤ c && c ≤ 'z') || ('A' ≤ c && c ≤ 'Z') || c == '_'

/-- Whether a word may go on with a character. -/
def isWordChar (c : Char) : Bool :=
  isWordStart c || ('0' ≤ c && c ≤ '9')

/-- The shapes of source text. -/
inductive Pattern where
  /-- A reserved word or an identifier. -/
  | word
  /-- Digits, in base ten or after a base mark. -/
  | integer
  /-- Characters that only separate. -/
  | blanks
  /-- From two slashes to the end of the line. -/
  | comment
  /-- The spelling of one kind. -/
  | mark (kind : Kind)
deriving DecidableEq

namespace Pattern

/-- The word at the front of a text. -/
def takeWord : List Char → List Char
  | c :: cs => if isWordStart c then c :: cs.takeWhile isWordChar else []
  | [] => []

/-- The integer at the front of a text.  A base mark counts only when a digit of
its base follows; otherwise the zero before it stands alone. -/
def takeInteger : List Char → List Char
  | '0' :: m :: cs =>
    match Radix.ofMark? m with
    | some r =>
      match cs.takeWhile r.isDigit with
      | [] => ['0']
      | d :: ds => '0' :: m :: d :: ds
    | none => ('0' :: m :: cs).takeWhile Radix.decimal.isDigit
  | cs => cs.takeWhile Radix.decimal.isDigit

/-- The comment at the front of a text; the end of the line is not part of it. -/
def takeComment : List Char → List Char
  | '/' :: '/' :: cs => '/' :: '/' :: cs.takeWhile (· != '\n')
  | _ => []

/-- A fixed text at the front of a text. -/
def takeText (text cs : List Char) : List Char :=
  if text.isPrefixOf cs then text else []

/-- What a pattern takes from the front of a text; nothing if it does not match. -/
def take : Pattern → List Char → List Char
  | word, cs => takeWord cs
  | integer, cs => takeInteger cs
  | blanks, cs => cs.takeWhile Text.isBlank
  | comment, cs => takeComment cs
  | mark k, cs => takeText k.spelling.toList cs

/-- Whether a pattern takes anything at all. -/
def matchesAt (p : Pattern) (cs : List Char) : Bool :=
  !(p.take cs).isEmpty

/-- The kind of token that a taken text makes; none for what only separates. -/
def kind? (p : Pattern) (text : List Char) : Option Kind :=
  match p with
  | word => some (Kind.ofWord (String.ofList text))
  | integer => some .integer
  | blanks | comment => none
  | mark k => some k

/-- The patterns in the order in which they are tried. -/
def table : List Pattern :=
  [word, integer, blanks, comment, mark .equals, mark .notEquals, mark .bang, mark .assign,
    mark .less, mark .greater, mark .plus, mark .minus, mark .asterisk, mark .slash,
    mark .comma, mark .semicolon, mark .openParen, mark .closeParen, mark .openCurly,
    mark .closeCurly]

/-- The first pattern of the table that matches. -/
def firstAt? (cs : List Char) : Option Pattern :=
  table.find? fun p => p.matchesAt cs

/-! ## A pattern takes from the front -/

theorem takeWord_isPrefix (cs : List Char) : takeWord cs <+: cs := by
  cases cs with
  | nil => exact List.nil_prefix
  | cons c cs =>
    simp only [takeWord]
    split
    · exact (List.prefix_cons_inj c).2 (List.takeWhile_prefix _)
    · exact List.nil_prefix

theorem takeInteger_isPrefix (cs : List Char) : takeInteger cs <+: cs := by
  unfold takeInteger
  split
  · next m cs =>
    split
    · next r _ =>
      split
      · exact ⟨m :: cs, rfl⟩
      · next d ds h =>
        have hp : d :: ds <+: cs := h ▸ List.takeWhile_prefix _
        simpa [List.prefix_cons_inj] using hp
    · exact List.takeWhile_prefix _
  · exact List.takeWhile_prefix _

theorem takeComment_isPrefix (cs : List Char) : takeComment cs <+: cs := by
  unfold takeComment
  split
  · simpa [List.prefix_cons_inj] using List.takeWhile_prefix _
  · exact List.nil_prefix

theorem takeText_isPrefix (text cs : List Char) : takeText text cs <+: cs := by
  unfold takeText
  split
  · next h => exact List.isPrefixOf_iff_prefix.1 h
  · exact List.nil_prefix

/-- Nothing is invented: what a pattern takes stands at the front of the text. -/
theorem take_isPrefix (p : Pattern) (cs : List Char) : p.take cs <+: cs := by
  cases p with
  | word => exact takeWord_isPrefix cs
  | integer => exact takeInteger_isPrefix cs
  | blanks => exact List.takeWhile_prefix _
  | comment => exact takeComment_isPrefix cs
  | mark k => exact takeText_isPrefix _ cs

theorem matchesAt_iff {p : Pattern} {cs : List Char} :
    p.matchesAt cs = true ↔ p.take cs ≠ [] := by
  simp [matchesAt]

theorem matchesAt_of_firstAt? {p : Pattern} {cs : List Char} (h : firstAt? cs = some p) :
    p.matchesAt cs = true := by
  simpa using List.find?_some h

end Pattern

end Frontend
