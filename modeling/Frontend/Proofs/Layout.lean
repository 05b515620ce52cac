/-
# `Frontend.Proofs.Layout` — lexemes written down with something between them

Any lexemes may be written down with `Trivia` between them, which are blanks and
comments that end themselves, and they are read back.  Trivia leave no token: a
comment ends before its newline, and the newline separates.  What is asked of the
trivia is only that the first character is a blank.  Behind a blank no token goes
on, be it a slash before a slash or a zero before a letter, and that is all that a
lexeme needs in order to be cut off as it is.
-/
import Frontend.Proofs.Newline
import Frontend.Proofs.Rendering
import Mathlib.Data.List.Basic

namespace Frontend

/-! ## Trivia -/

/-- Blanks and comments in any order, each comment with the newline that ends it.  Other than a
`Gap` they end by themselves, whatever follows. -/
inductive Trivia : List Char → Prop where
  | nil : Trivia []
  | blank {c : Char} {g : List Char} (hc : Text.isBlank c = true) (hg : Trivia g) : Trivia (c :: g)
  | comment {line g : List Char} (hline : '\n' ∉ line) (hg : Trivia g) :
      Trivia ('/' :: '/' :: (line ++ '\n' :: g))

/-- Trivia that begin with a blank. -/
def Separates (g : List Char) : Prop :=
  Trivia g ∧ ∃ c ∈ g.head?, Text.isBlank c = true

theorem tokensOf_comment {line : List Char} (hline : '\n' ∉ line) :
    tokensOf ('/' :: '/' :: line) = [] := by
  have hinside : ∀ c ∈ line, (c != '\n') = true := by
    intro c hc
    exact bne_iff_ne.2 fun heq => hline (heq ▸ hc)
  have htake : line.takeWhile (· != '\n') = line := by
    have h : (line ++ []).takeWhile (· != '\n') = line :=
      takeWhile_append_of_stops hinside (by rintro c ⟨⟩)
    rwa [List.append_nil] at h
  have hfront : Piece.front '/' ('/' :: line) = ⟨none, '/' :: '/' :: line⟩ := by
    rw [Piece.front, Pattern.firstAt?_comment rfl]
    simp only [Pattern.take, Pattern.takeComment, Pattern.kind?, htake]
  have hbehind : Piece.behind '/' ('/' :: line) = [] := by
    rw [Piece.behind, hfront, List.drop_length]
  rw [tokensOf_cons, hfront, hbehind, tokensOf_nil]
  rfl

/-- Trivia leave no token. -/
theorem Trivia.tokensOf_append {g : List Char} (h : Trivia g) (rest : List Char) :
    tokensOf (g ++ rest) = tokensOf rest := by
  induction h with
  | nil => rfl
  | blank hc _ ih => rw [List.cons_append, tokensOf_blank hc, ih]
  | @comment line g hline _ ih =>
    have htext : '/' :: '/' :: (line ++ '\n' :: g) ++ rest =
        ('/' :: '/' :: line) ++ '\n' :: (g ++ rest) := by simp
    rw [htext, tokensOf_append_newline, tokensOf_comment hline, List.nil_append, ih]

/-- Behind a blank no token goes on. -/
theorem clear_of_isBlank {c : Char} (hc : Text.isBlank c = true) (cs : List Char) :
    Clear (c :: cs) := by
  obtain ⟨hstart, hdigit⟩ := isWordStart_of_isBlank hc
  refine clear_cons ⟨?_, ?_, ?_⟩
  · rw [isWordChar, hstart, Bool.false_or]
    refine Bool.eq_false_iff.2 fun h => Bool.eq_false_iff.1 hdigit (isDigit_decimal_iff.2 ?_)
    simpa [char_le_iff] using h
  · rintro rfl
    cases hc
  · rintro rfl
    cases hc

theorem Separates.clear {g : List Char} (h : Separates g) (rest : List Char) :
    Clear (g ++ rest) := by
  obtain ⟨-, c, hc, hblank⟩ := h
  obtain ⟨g, rfl⟩ := List.head?_eq_some_iff.1 hc
  exact clear_of_isBlank hblank (g ++ rest)

/-- The texts of tokens, each with what is written behind it. -/
def layout (xs : List (Token × List Char)) : List Char :=
  xs.flatMap fun x => x.1.text.toList ++ x.2

/-- Lexemes that are each followed by a separator are read one by one, whatever comes then. -/
theorem tokensOf_layout_append {xs : List (Token × List Char)}
    (hxs : ∀ x ∈ xs, x.1.IsLexeme ∧ Separates x.2) (rest : List Char) :
    tokensOf (layout xs ++ rest) = xs.map Prod.fst ++ tokensOf rest := by
  induction xs with
  | nil => rfl
  | cons x xs ih =>
    obtain ⟨⟨hx, hsep⟩, hxs⟩ := List.forall_mem_cons.1 hxs
    have htext : layout (x :: xs) ++ rest = x.1.text.toList ++ (x.2 ++ (layout xs ++ rest)) := by
      simp [layout]
    rw [htext, tokensOf_lexeme hx ((hsep.clear _).endsBefore _), hsep.1.tokensOf_append, ih hxs]
    rfl

/-- The last lexeme may be followed by nothing. -/
theorem tokensOf_last {t : Token} {g : List Char} (ht : t.IsLexeme) (hg : Separates g ∨ g = []) :
    tokensOf (t.text.toList ++ g) = [t] := by
  rcases hg with hsep | rfl
  · have hclear := hsep.clear []
    have hnone := hsep.1.tokensOf_append []
    rw [List.append_nil] at hclear hnone
    rw [tokensOf_lexeme ht (hclear.endsBefore _), hnone, tokensOf_nil]
  · rw [tokensOf_lexeme ht (clear_nil.endsBefore _), tokensOf_nil]

/-- **Lexemes survive being written down.**  Any lexemes, each with a separator behind it and
the last with one or with nothing, and with any trivia in front of them all, are the
tokens of the text that they make. -/
theorem tokenize_layout (front : List Char) (xs : List (Token × List Char)) (hfront : Trivia front)
    (hlexeme : ∀ x ∈ xs, x.1.IsLexeme) (hbetween : ∀ x ∈ xs.dropLast, Separates x.2)
    (hend : ∀ x ∈ xs.getLast?, Separates x.2 ∨ x.2 = []) :
    tokenize (String.ofList (front ++ layout xs)) = xs.map Prod.fst ++ [.eof] := by
  rw [tokenize, String.toList_ofList, hfront.tokensOf_append]
  congr 1
  -- The last one is taken apart from the others: it alone may have nothing behind it.
  rcases List.eq_nil_or_concat' xs with rfl | ⟨ys, x, rfl⟩
  · exact tokensOf_nil
  · rw [List.dropLast_concat] at hbetween
    rw [List.getLast?_concat] at hend
    have hys : ∀ y ∈ ys, y.1.IsLexeme ∧ Separates y.2 := fun y hy =>
      ⟨hlexeme y (List.mem_append_left _ hy), hbetween y hy⟩
    have hx : x.1.IsLexeme := hlexeme x (List.mem_append_right _ List.mem_cons_self)
    have htext : layout (ys ++ [x]) = layout ys ++ (x.1.text.toList ++ x.2) := by simp [layout]
    rw [htext, tokensOf_layout_append hys, tokensOf_last hx (hend x rfl), List.map_append]
    rfl

/-- Next to one another the slashes would begin a comment and the zero would take in what
follows it. -/
theorem tokenize_layout_apart :
    let front := ['/', '/', 'a', '\n']
    let xs : List (Token × List Char) :=
      [(⟨.slash, "/"⟩, [' ']), (⟨.slash, "/"⟩, ['\n', '/', '/', '/', '\n']),
        (⟨.integer, "0"⟩, ['\u00a0']), (⟨.identifier, "x1"⟩, ['\t']), (⟨.illegal, "@"⟩, [])]
    Trivia front ∧ (∀ x ∈ xs, x.1.IsLexeme) ∧ (∀ x ∈ xs.dropLast, Separates x.2) ∧
      (∀ x ∈ xs.getLast?, Separates x.2 ∨ x.2 = []) ∧
      tokenize (String.ofList (front ++ layout xs)) = xs.map Prod.fst ++ [.eof] := by
  intro front xs
  have hcomment (line : List Char) (h : '\n' ∉ line) : Trivia ('/' :: '/' :: (line ++ ['\n'])) :=
    .comment h .nil
  have hfront : Trivia front := hcomment ['a'] (by simp)
  have hone (c : Char) (hc : Text.isBlank c = true) : Separates [c] :=
    ⟨.blank hc .nil, c, rfl, hc⟩
  have hline : Separates ['\n', '/', '/', '/', '\n'] :=
    ⟨.blank rfl (hcomment ['/'] (by simp)), '\n', rfl, rfl⟩
  have hlexeme : ∀ x ∈ xs, x.1.IsLexeme := by
    simp only [xs, List.forall_mem_cons]
    have hzero : IsInteger ['0'] := .inl ⟨List.cons_ne_nil _ _, by simp; rfl⟩
    have hword : IsWord ['x', '1'] := ⟨rfl, by simp; rfl⟩
    have hillegal : ∀ cs, Pattern.firstAt? ('@' :: cs) = none :=
      Pattern.firstAt?_eq_none (show Pattern.firstAt? ['@'] = none by decide)
    exact ⟨rfl, rfl, hzero, ⟨hword, rfl⟩, ⟨'@', rfl, hillegal⟩, fun x hx => by cases hx⟩
  have hbetween : ∀ x ∈ xs.dropLast, Separates x.2 := by
    simp only [xs, List.dropLast_cons_cons, List.dropLast_singleton, List.forall_mem_cons]
    exact ⟨hone _ rfl, hline, hone _ rfl, hone _ rfl, fun x hx => by cases hx⟩
  have hend : ∀ x ∈ xs.getLast?, Separates x.2 ∨ x.2 = [] := by
    rintro x ⟨⟩
    exact .inr rfl
  exact ⟨hfront, hlexeme, hbetween, hend, tokenize_layout front xs hfront hlexeme hbetween hend⟩

end Frontend
