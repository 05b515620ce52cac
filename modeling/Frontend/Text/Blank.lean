/-
# `Frontend.Text.Blank` — the characters that separate

The property White_Space of the Unicode standard.  It is wider than the blanks
of ASCII (the no-break space and the ideographic space are in it) and narrower
than "invisible": the zero-width space and the byte order mark are not.
-/
import Frontend.Text.CodeRange

namespace Frontend.Text

/-- The ranges of White_Space. -/
def blankRanges : List CodeRange :=
  [(0x9, 0xD), (0x20, 0x20), (0x85, 0x85), (0xA0, 0xA0), (0x1680, 0x1680), (0x2000, 0x200A),
    (0x2028, 0x2029), (0x202F, 0x202F), (0x205F, 0x205F), (0x3000, 0x3000)]

/-- Whether a character only separates. -/
def isBlank (c : Char) : Bool :=
  inRanges blankRanges c

theorem isBlank_newline : isBlank '\n' = true := by decide

theorem isBlank_space : isBlank ' ' = true := by decide

end Frontend.Text
