/-
# `Frontend.Proofs.Newline` — two texts with a newline between them

Two texts that are joined may be cut in another way than each by itself: words
grow together, two slashes make a comment, a comment swallows what follows it.
A newline between them prevents all of it.  No pattern has a newline in one of
its texts but the one for blanks, and what a pattern takes is settled by which of
its texts stand at the front, so a piece before the newline is the piece that it
was without it (`take_append_newline`).  A run of blanks may go on over the
newline; but blanks make no token, however they are cut.

So the tokens of two texts with a newline between them are those of the one and
then those of the other.  A written program, with each statement on a line of its
own, therefore has the tokens of its statements, whatever their texts are.
-/
import Frontend.Program
import Frontend.Proofs.Munch
import Mathlib.Data.List.Find

namespace Frontend

/-! ## A piece before a newline -/

namespace Pattern

variable {p : Pattern} {w cs ds : List Char}

/-- A newline only stands in a run of blanks. -/
theorem Matches.newline_notMem (h : p.Matches w) (hp : p ≠ .blanks) : '\n' ∉ w := by
  intro hmem
  have hnewline : isWordChar '\n' = false := rfl
  cases p with
  | word =>
    cases w with
    | nil => exact h
    | cons c w =>
      have hword : ∀ d ∈ c :: w, isWordChar d = true :=
        List.forall_mem_cons.2 ⟨by rw [isWordChar, h.1, Bool.true_or], h.2⟩
      exact absurd (hword _ hmem) (Bool.eq_false_iff.1 hnewline)
  | integer => exact absurd (IsInteger.isWordChar h _ hmem) (Bool.eq_false_iff.1 hnewline)
  | blanks => exact hp rfl
  | comment =>
    obtain ⟨line, rfl, hline⟩ := h
    exact hline '\n' (by simpa using hmem) rfl
  | mark k =>
    obtain rfl := h
    cases k <;> simp [Kind.spelling] at hmem

/-- The more of its texts stand at the front, the more a pattern takes. -/
theorem take_isPrefix_take (h : ∀ v, p.Matches v → v <+: cs → v <+: ds) :
    p.take cs <+: p.take ds := by
  by_cases hnil : p.take cs = []
  · rw [hnil]
    exact List.nil_prefix
  · have hmatches := matches_take hnil
    exact isPrefix_take hmatches (h _ hmatches (take_isPrefix p cs))

theorem isPrefix_append_newline {rest : List Char} (hw : '\n' ∉ w) :
    w <+: cs ++ '\n' :: rest ↔ w <+: cs := by
  refine ⟨fun h => ?_, fun h => h.trans (List.prefix_append _ _)⟩
  have hline : cs ++ ['\n'] <+: cs ++ '\n' :: rest := by simp
  rcases List.prefix_or_prefix_of_prefix h hline with hshort | hlong
  · rcases List.prefix_concat_iff.1 hshort with rfl | hcs
    · exact absurd (by simp) hw
    · exact hcs
  · exact absurd (hlong.subset (by simp)) hw

/-- What stands behind a newline is nothing to a pattern that does not take it. -/
theorem take_append_newline (hp : p ≠ .blanks) (cs rest : List Char) :
    p.take (cs ++ '\n' :: rest) = p.take cs := by
  have hiff (v : List Char) (hv : p.Matches v) : v <+: cs ++ '\n' :: rest ↔ v <+: cs :=
    isPrefix_append_newline (hv.newline_notMem hp)
  have hle := take_isPrefix_take fun v hv => (hiff v hv).1
  have hge := take_isPrefix_take fun v hv => (hiff v hv).2
  exact hle.eq_of_length_le hge.length_le

theorem firstAt?_append_newline (c : Char) (cs rest : List Char) :
    firstAt? (c :: cs ++ '\n' :: rest) = firstAt? (c :: cs) := by
  refine List.find?_congr fun p _ => ?_
  by_cases hp : p = .blanks
  · rw [hp, List.cons_append, matchesAt_blanks, matchesAt_blanks]
  · rw [matchesAt, matchesAt, take_append_newline hp]

end Pattern

namespace Piece

variable {c : Char}

theorem front_append_newline (hc : Text.isBlank c = false) (cs rest : List Char) :
    front c (cs ++ '\n' :: rest) = front c cs := by
  have hfirst := Pattern.firstAt?_append_newline c cs rest
  rw [List.cons_append] at hfirst
  rw [front, front, hfirst]
  cases hp : Pattern.firstAt? (c :: cs) with
  | none => rfl
  | some p =>
    have hblanks : p ≠ .blanks := by
      rintro rfl
      have hm := Pattern.matchesAt_of_firstAt? hp
      rw [Pattern.matchesAt_blanks, hc] at hm
      cases hm
    have htake := Pattern.take_append_newline hblanks (c :: cs) rest
    rw [List.cons_append] at htake
    dsimp only
    rw [htake]

theorem behind_append_newline (hc : Text.isBlank c = false) (cs rest : List Char) :
    behind c (cs ++ '\n' :: rest) = behind c cs ++ '\n' :: rest := by
  have hle := (front_text_isPrefix c cs).length_le
  rw [behind, behind, front_append_newline hc, ← List.cons_append,
    List.drop_append_of_le_length hle]

end Piece

/-! ## Two texts and a newline -/

theorem tokensOf_cons (c : Char) (cs : List Char) :
    tokensOf (c :: cs) = (Piece.front c cs).token?.toList ++ tokensOf (Piece.behind c cs) := by
  rw [tokensOf, pieces, List.filterMap_cons, tokensOf]
  cases (Piece.front c cs).token? <;> rfl

/-- The pieces are compared from the front.  A blank is passed by itself: the run that it
begins need not be the same in both texts. -/
theorem tokensOf_append_newline (cs ds : List Char) :
    tokensOf (cs ++ '\n' :: ds) = tokensOf cs ++ tokensOf ds := by
  match cs with
  | [] => rw [List.nil_append, tokensOf_nil, List.nil_append, tokensOf_blank Text.isBlank_newline]
  | c :: cs =>
    by_cases hc : Text.isBlank c = true
    · rw [List.cons_append, tokensOf_blank hc, tokensOf_blank hc, tokensOf_append_newline cs ds]
    · have hc : Text.isBlank c = false := Bool.eq_false_iff.2 hc
      have hrest := tokensOf_append_newline (Piece.behind c cs) ds
      rw [List.cons_append, tokensOf_cons, Piece.front_append_newline hc,
        Piece.behind_append_newline hc, hrest, tokensOf_cons, List.append_assoc]
termination_by cs.length
decreasing_by
  · exact Nat.lt_add_one cs.length
  · exact Piece.length_behind_lt _ _

theorem tokensOf_joinLines (ls : List String) :
    tokensOf (Program.joinLines ls).toList = ls.flatMap fun l => tokensOf l.toList := by
  induction ls with
  | nil => exact tokensOf_nil
  | cons l ls ih =>
    cases ls with
    | nil => exact (List.append_nil _).symm
    | cons l' ls =>
      have htext : (Program.joinLines (l :: l' :: ls)).toList =
          l.toList ++ '\n' :: (Program.joinLines (l' :: ls)).toList := by
        simp [Program.joinLines]
      rw [htext, tokensOf_append_newline, ih]
      rfl

theorem dropLast_tokenize (s : String) : (tokenize s).dropLast = tokensOf s.toList :=
  List.dropLast_concat

/-- **A newline separates.**  Whatever two texts are, and wherever in a comment, an operator, a
number, a word or a run of blanks the one ends or the other begins: with a newline
between them they have the tokens of the first, without its end of input, and then
those of the second.

So a written program has the tokens of its statements, each written by itself. -/
theorem tokenize_append_newline :
    (∀ s t : String, tokenize (s ++ "\n" ++ t) = (tokenize s).dropLast ++ tokenize t) ∧
      ∀ p : Program, tokenize p.render =
        (p.statements.flatMap fun s => (tokenize s.render).dropLast) ++ [.eof] := by
  refine ⟨fun s t => ?_, fun p => ?_⟩
  · have htext : (s ++ "\n" ++ t).toList = s.toList ++ '\n' :: t.toList := by simp
    rw [tokenize, htext, tokensOf_append_newline, dropLast_tokenize, tokenize, List.append_assoc]
  · simp only [dropLast_tokenize]
    rw [tokenize, Program.render, tokensOf_joinLines, List.flatMap_map]

end Frontend
