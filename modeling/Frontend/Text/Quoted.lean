/-
# `Frontend.Text.Quoted` — a text between double quotes, one reading only

A quoted text shows every character either raw or as an escape that begins with
a backslash.  The quote and the backslash are always escaped, so the end of a
quoted text is never in doubt and what was quoted can be read back.  Beyond
those two, the line and tab controls have letters of their own, and whatever
would not be seen, or would alter its neighbour, is written as its code in
braces.
-/
import Frontend.Text.Extender
import Frontend.Text.Ignorable
import Frontend.Text.Unprintable

namespace Frontend.Text

/-- The digits of a number in lower-case hexadecimal, without leading zeros. -/
def hexDigits (n : Nat) : List Char :=
  Nat.toDigits 16 n

/-- The code of a character in braces. -/
def codeEscape (c : Char) : List Char :=
  ['\\', 'u', '\x7b'] ++ hexDigits c.toNat ++ ['\x7d']

/-- Whether a character is shown by its code, having no letter to show it by. -/
def needsCode (c : Char) : Bool :=
  isExtender c || isIgnorable c || isUnprintable c

/-- How one character stands in a quoted text. -/
def escape : Char → List Char
  | '"' => ['\\', '"']
  | '\\' => ['\\', '\\']
  | '\n' => ['\\', 'n']
  | '\r' => ['\\', 'r']
  | '\t' => ['\\', 't']
  | '\x00' => ['\\', '0']
  | c => if needsCode c then codeEscape c else [c]

/-- A text in double quotes. -/
def quote (s : String) : String :=
  String.ofList (['"'] ++ s.toList.flatMap escape ++ ['"'])

end Frontend.Text
