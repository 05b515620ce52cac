/-
# `Frontend.Proofs.Literal` — the lexer's integers and the reader's

What an integer looks like is said twice: by the pattern that cuts integers off a
text, and by the reader that makes numbers of texts.  Here it is said a third time,
without either (`Numeral.Literal`): the mark of a base and digits of that base, with
the number that the digits stand for.

The pattern takes exactly these (`Numeral.isInteger_iff_literal`), and each stands for
one number only.  The reader answers with that number, unless it is beyond a signed
word (`Numeral.read?_of_literal`).  So nothing but its size can keep an integer from
being read, and a complaint that a text is no integer always is about a token of the
source that is one, but too large.

The last step goes by the wording too.  No other complaint is worded so, and the text
stands between the quotes as it is, because a quoted text leaves the characters of
words alone.
-/
import Frontend.Proofs.Positional
import Frontend.Proofs.Warrant

namespace Frontend

namespace Numeral

variable {cs : List Char} {m n : Nat} {s : String}

/-! ## Literals -/

/-- The mark of a base and one digit of it or more, which stand for a number.  There is
no sign. -/
def Literal (cs : List Char) (m : Nat) : Prop :=
  ∃ (r : Radix) (mark digits : List Char),
    mark ∈ r.marks ∧ digits ≠ [] ∧ r.Writes digits m ∧ cs = mark ++ digits

/-- A literal denotes its number, being an integer without a sign. -/
theorem Literal.denotes (h : Literal cs m) : Denotes cs (m : Int) := by
  obtain ⟨r, mark, digits, hmark, hne, hwrites, rfl⟩ := h
  have hsign : [] ∈ signs false := .head _
  exact denotes_append hsign hmark hne hwrites

theorem Literal.unique (hm : Literal cs m) (hn : Literal cs n) : m = n := by
  have hvalue := (denotes_iff.1 hm.denotes).2.symm.trans (denotes_iff.1 hn.denotes).2
  exact Int.ofNat.inj hvalue

theorem isInteger_iff_literal : IsInteger cs ↔ ∃ m, Literal cs m := by
  constructor
  · rintro (⟨hne, hdigits⟩ | ⟨c, r, digits, rfl, hc, hne, hdigits⟩)
    · have hmark : [] ∈ Radix.decimal.marks := List.mem_singleton_self _
      exact ⟨_, .decimal, [], cs, hmark, hne, Radix.writes_iff.2 ⟨hdigits, rfl⟩, rfl⟩
    · have hmark : ['0', c] ∈ r.marks := Radix.mem_marks_iff.2 (.inr ⟨c, rfl, hc⟩)
      exact ⟨_, r, ['0', c], digits, hmark, hne, Radix.writes_iff.2 ⟨hdigits, rfl⟩, rfl⟩
  · rintro ⟨m, r, mark, digits, hmark, hne, hwrites, rfl⟩
    exact isInteger_append hmark hne (Radix.writes_iff.1 hwrites).1

/-- A literal is never below the range, so it is read unless it is above it. -/
theorem read?_of_literal (h : Literal s.toList m) :
    read? s = if m < 9223372036854775808 then some (m : Int) else none := by
  split
  · exact read?_iff_denotes.2 ⟨h.denotes, by omega, by omega⟩
  · next hlarge =>
    refine Option.eq_none_iff_forall_ne_some.2 fun v hv => ?_
    obtain ⟨hdenotes, -, hgreatest⟩ := read?_iff_denotes.1 hv
    have hvalue : v = m :=
      (denotes_iff.1 hdenotes).2.symm.trans (denotes_iff.1 h.denotes).2
    omega

theorem read?_eq_none_iff (h : Literal s.toList m) :
    read? s = none ↔ 9223372036854775808 ≤ m := by
  rw [read?_of_literal h, ← Nat.not_lt]
  split
  · next hlt => exact iff_of_false (Option.some_ne_none _) (not_not_intro hlt)
  · next hlarge => exact iff_of_true rfl hlarge

end Numeral

/-! ## The wording -/

namespace Text

variable {c : Char} {ranges : List CodeRange}

theorem toNat_of_isWordChar (h : isWordChar c = true) : 48 ≤ c.toNat ∧ c.toNat ≤ 122 := by
  simp only [isWordChar, Bool.or_eq_true, Bool.and_eq_true, decide_eq_true_eq, isWordStart_iff,
    char_le_iff, Char.reduceToNat] at h
  omega

theorem inRanges_of_isWordChar (h : isWordChar c = true)
    (hall : ranges.all (fun r => decide (r.2 < 48 ∨ 122 < r.1)) = true) :
    inRanges ranges c = false := by
  obtain ⟨hleast, hgreatest⟩ := toNat_of_isWordChar h
  refine Bool.eq_false_iff.2 fun hin => ?_
  obtain ⟨r, hr, hfirst, hlast⟩ := inRanges_iff.1 hin
  have houtside := of_decide_eq_true (List.all_eq_true.1 hall r hr)
  omega

/-- The tables have nothing between the digit zero and the letter z. -/
theorem needsCode_of_isWordChar (h : isWordChar c = true) : needsCode c = false := by
  have hextender : isExtender c = false := inRanges_of_isWordChar h (by decide +kernel)
  have hignorable : isIgnorable c = false := inRanges_of_isWordChar h (by decide +kernel)
  have hunprintable : isUnprintable c = false := inRanges_of_isWordChar h (by decide +kernel)
  rw [needsCode, hextender, hignorable, hunprintable, Bool.or_self, Bool.or_self]

theorem escape_of_isWordChar (h : isWordChar c = true) : escape c = [c] := by
  unfold escape
  split
  case h_7 => rw [needsCode_of_isWordChar h, if_neg Bool.false_ne_true]
  all_goals exact absurd h (by decide)

theorem quote_of_isWordChar {s : String} (h : ∀ c ∈ s.toList, isWordChar c = true) :
    quote s = "\"" ++ s ++ "\"" := by
  have hescape : s.toList.flatMap escape = s.toList := by
    rw [List.flatMap_congr fun c hc => escape_of_isWordChar (h c hc), List.flatMap_singleton']
  apply String.toList_inj.1
  rw [quote, hescape, String.toList_ofList, String.toList_append, String.toList_append]
  rfl

end Text

namespace Problem

/-- A text of letters and digits stands in the wording as it is. -/
theorem message_notAnInteger_of_isWordChar {text : String}
    (h : ∀ c ∈ text.toList, isWordChar c = true) :
    (notAnInteger text).message = "could not parse \"" ++ text ++ "\" as integer" := by
  rw [message_notAnInteger, Text.quote_of_isWordChar h]
  apply String.toList_inj.1
  simp [String.toList_append]

/-- No other complaint begins like it. -/
theorem exists_eq_notAnInteger {e : Problem} {text : String}
    (h : e.message = "could not parse \"" ++ text ++ "\" as integer") :
    ∃ u, e = .notAnInteger u := by
  cases e with
  | notAnInteger u => exact ⟨u, rfl⟩
  | noOpening | unexpected | tooDeep =>
    have hlist := congrArg String.toList h
    simp [String.toList_append] at hlist

end Problem

/-! ## Integers of a source -/

/-- The text of an integer token is a literal. -/
theorem exists_literal_of_mem_tokenize {source : String} {t : Token} (ht : t ∈ tokenize source)
    (hkind : t.kind = .integer) : ∃ m, Numeral.Literal t.text.toList m := by
  have hne : t.kind ≠ .eof := hkind ▸ Kind.noConfusion
  have hlexeme := isLexeme_of_mem_tokenize ht hne
  exact Numeral.isInteger_iff_literal.1 ((Token.isLexeme_of_integer hkind).1 hlexeme)

/-- What is complained of as no integer is an integer of the source, and too large. -/
theorem exists_literal_of_notAnInteger {source text : String} {config : Config}
    (h : Problem.notAnInteger text ∈ (parseText source config).diagnostics.toList) :
    ∃ t ∈ tokenize source, t.kind = .integer ∧ t.text = text ∧
      ∃ m, Numeral.Literal text.toList m ∧ 9223372036854775808 ≤ m := by
  obtain ⟨n, hcauses⟩ := exists_causes_of_mem h
  cases hcauses with
  | notAnInteger hopens hread =>
    rw [Parser.grammar_move] at hopens
    have hmem := Parser.current_mem_tokenize source config n
    have hkind := Grammar.opening_standard_atom.2 hopens
    obtain ⟨m, hm⟩ := exists_literal_of_mem_tokenize hmem hkind
    exact ⟨_, hmem, hkind, rfl, m, hm, (Numeral.read?_eq_none_iff hm).1 hread⟩

/-- **Integers of a source.**  Each integer token has a literal for its text, which stands for
one number, by the base that its mark says.  The reader refuses it exactly if the number
is beyond a signed word of sixty-four bits, and else answers with this number.

So a complaint of something that is no integer, by its cause or by its wording, always is about
an integer token of the source whose number is too large. -/
theorem tokenize_integers_read (source : String) (config : Config) :
    (∀ t ∈ tokenize source, t.kind = .integer → ∃ m : Nat,
      (∀ n, Numeral.Literal t.text.toList n ↔ n = m) ∧
        (Numeral.read? t.text = none ↔ 9223372036854775808 ≤ m) ∧
        (m < 9223372036854775808 → Numeral.read? t.text = some (m : Int))) ∧
    ∀ e ∈ (parseText source config).diagnostics.toList, ∀ text,
      (e = .notAnInteger text ∨ e.message = "could not parse \"" ++ text ++ "\" as integer") →
        ∃ t ∈ tokenize source, t.kind = .integer ∧ t.text = text ∧
          ∃ m, Numeral.Literal text.toList m ∧ 9223372036854775808 ≤ m := by
  refine ⟨fun t ht hkind => ?_, fun e he text hsays => ?_⟩
  · obtain ⟨m, hm⟩ := exists_literal_of_mem_tokenize ht hkind
    refine ⟨m, fun n => ⟨fun hn => hn.unique hm, fun hn => hn ▸ hm⟩,
      Numeral.read?_eq_none_iff hm, fun hlt => ?_⟩
    rw [Numeral.read?_of_literal hm, if_pos hlt]
  · rcases hsays with rfl | hwording
    · exact exists_literal_of_notAnInteger he
    · obtain ⟨u, rfl⟩ := Problem.exists_eq_notAnInteger hwording
      obtain ⟨t, ht, hkind, rfl, m, hm, hlarge⟩ := exists_literal_of_notAnInteger he
      have hword := (Numeral.isInteger_iff_literal.2 ⟨m, hm⟩).isWordChar
      rw [Problem.message_notAnInteger_of_isWordChar hword, String.append_left_inj,
        String.append_right_inj] at hwording
      exact ⟨t, ht, hkind, hwording, m, hwording ▸ hm, hlarge⟩

/-- The pattern cuts `0b12` behind the one, and what it has cut off is read in base two.  The
complaint about the last operand is worded with a text that an integer token has. -/
theorem tokenize_integers_read_cut :
    let source := "0b12 - 9223372036854775808"
    let config : Config := ⟨true, 256⟩
    let cut : Token := ⟨.integer, "0b1"⟩
    let large := "9223372036854775808"
    let complaint := Problem.notAnInteger large
    cut ∈ tokenize source ∧ cut.kind = .integer ∧ Numeral.Literal cut.text.toList 1 ∧
      Numeral.read? cut.text = some 1 ∧
      complaint ∈ (parseText source config).diagnostics.toList ∧
      complaint.message = "could not parse \"" ++ large ++ "\" as integer" ∧
      ∃ t ∈ tokenize source, t.kind = .integer ∧ t.text = large ∧
        ∃ m, Numeral.Literal large.toList m ∧ 9223372036854775808 ≤ m := by
  intro source config cut large complaint
  have hread := tokenize_integers_read source config
  have hcut : cut ∈ tokenize source := by decide +kernel
  have hliteral : Numeral.Literal cut.text.toList 1 :=
    ⟨.binary, ['0', 'b'], ['1'], .head _, List.cons_ne_nil _ _,
      ⟨[1], .cons ⟨Nat.lt_add_one 1, .inl rfl⟩ .nil, rfl⟩, by decide +kernel⟩
  have hcomplaint : complaint ∈ (parseText source config).diagnostics.toList := by decide +kernel
  have hdigits : ∀ c ∈ large.toList, isWordChar c = true :=
    List.all_eq_true.1 (by decide +kernel)
  have hmessage := Problem.message_notAnInteger_of_isWordChar hdigits
  obtain ⟨m, hm, -, hsmall⟩ := hread.1 cut hcut rfl
  obtain rfl := (hm 1).1 hliteral
  have hlarge := hread.2 complaint hcomplaint large (.inr hmessage)
  exact ⟨hcut, rfl, hliteral, hsmall (by omega), hcomplaint, hmessage, hlarge⟩

end Frontend
