/-
# `Frontend.Lexer.Piece` — source text cut up from front to back

Every text is cut into pieces, without loss: a piece is the text of a token, or
a run of blanks or a comment, which make no token.  A character at which no
pattern matches is a piece by itself and makes a token that no statement can
use.

The tokens of a text are those of its pieces, in order.  Reading them one at a
time (`nextToken?`) gives the same tokens as cutting up the whole text.
-/
import Frontend.Lexer.Pattern
import Frontend.Token

namespace Frontend

/-- A stretch of source text, with the kind of token it makes, if any. -/
structure Piece where
  kind? : Option Kind
  text : List Char
deriving DecidableEq

namespace Piece

/-- The token that a piece makes. -/
def token? (p : Piece) : Option Token :=
  p.kind?.map fun k => ⟨k, String.ofList p.text⟩

/-- The piece at the front of a text that begins with a character. -/
def front (c : Char) (cs : List Char) : Piece :=
  match Pattern.firstAt? (c :: cs) with
  | some p => ⟨p.kind? (p.take (c :: cs)), p.take (c :: cs)⟩
  | none => ⟨some .illegal, [c]⟩

theorem front_text_isPrefix (c : Char) (cs : List Char) : (front c cs).text <+: c :: cs := by
  unfold front
  split
  · exact Pattern.take_isPrefix _ _
  · exact ⟨cs, rfl⟩

theorem front_text_ne_nil (c : Char) (cs : List Char) : (front c cs).text ≠ [] := by
  unfold front
  split
  · next h => exact Pattern.matchesAt_iff.1 (Pattern.matchesAt_of_firstAt? h)
  · simp

/-- What a text leaves behind its first piece. -/
def behind (c : Char) (cs : List Char) : List Char :=
  (c :: cs).drop (front c cs).text.length

theorem text_append_behind (c : Char) (cs : List Char) :
    (front c cs).text ++ behind c cs = c :: cs := by
  obtain ⟨t, h⟩ := front_text_isPrefix c cs
  rw [behind, ← h]
  simp

theorem length_behind_lt (c : Char) (cs : List Char) :
    (behind c cs).length < (c :: cs).length := by
  have h : 0 < (front c cs).text.length := List.length_pos_iff.2 (front_text_ne_nil c cs)
  simp only [behind, List.length_drop]
  simp only [List.length_cons]
  omega

end Piece

/-- A text cut into pieces. -/
def pieces : List Char → List Piece
  | [] => []
  | c :: cs => Piece.front c cs :: pieces (Piece.behind c cs)
termination_by cs => cs.length
decreasing_by exact Piece.length_behind_lt c cs

/-- Cutting loses nothing. -/
theorem flatMap_text_pieces (cs : List Char) : (pieces cs).flatMap Piece.text = cs := by
  fun_induction pieces cs with
  | case1 => rfl
  | case2 c cs ih => rw [List.flatMap_cons, ih, Piece.text_append_behind]

/-- The tokens of a text, without the end of input. -/
def tokensOf (cs : List Char) : List Token :=
  (pieces cs).filterMap Piece.token?

@[simp] theorem tokensOf_nil : tokensOf [] = [] := by
  simp [tokensOf, pieces]

/-- The tokens of a source, with the end of input. -/
def tokenize (source : String) : List Token :=
  tokensOf source.toList ++ [.eof]

/-! ## One token at a time -/

/-- The first token of a text and what is left behind it; none if nothing but
blanks and comments is left. -/
def nextToken? : List Char → Option (Token × List Char)
  | [] => none
  | c :: cs =>
    match (Piece.front c cs).token? with
    | some t => some (t, Piece.behind c cs)
    | none => nextToken? (Piece.behind c cs)
termination_by cs => cs.length
decreasing_by exact Piece.length_behind_lt c cs

theorem length_lt_of_nextToken? {cs rest : List Char} {t : Token}
    (h : nextToken? cs = some (t, rest)) : rest.length < cs.length := by
  fun_induction nextToken? cs with
  | case1 => simp at h
  | case2 c cs u hu =>
    simp only [Option.some.injEq, Prod.mk.injEq] at h
    exact h.2 ▸ Piece.length_behind_lt c cs
  | case3 c cs hu ih => exact Nat.lt_trans (ih h) (Piece.length_behind_lt c cs)

theorem tokensOf_of_nextToken?_eq_none {cs : List Char} (h : nextToken? cs = none) :
    tokensOf cs = [] := by
  fun_induction nextToken? cs with
  | case1 => simp [tokensOf, pieces]
  | case2 c cs u hu => simp at h
  | case3 c cs hu ih =>
    have := ih h
    simp_all [tokensOf, pieces]

theorem tokensOf_of_nextToken?_eq_some {cs rest : List Char} {t : Token}
    (h : nextToken? cs = some (t, rest)) : tokensOf cs = t :: tokensOf rest := by
  fun_induction nextToken? cs with
  | case1 => simp at h
  | case2 c cs u hu =>
    simp only [Option.some.injEq, Prod.mk.injEq] at h
    obtain ⟨rfl, rfl⟩ := h
    simp [tokensOf, pieces, hu]
  | case3 c cs hu ih =>
    have := ih h
    simp_all [tokensOf, pieces]

end Frontend
