/-
# `Frontend.Proofs.Lexeme` — the texts of tokens, and reading them back

Each kind of token has its class of texts: a mark or a reserved word has one, an
identifier is a word that is not reserved, an integer is digits of a base behind
the mark of that base, or decimal digits.  A lexeme is a token whose text is in
the class of its kind.

Two statements tie lexemes to the lexer.  Every token that is cut off a text is
a lexeme (`isLexeme_of_mem_tokensOf`).  And a lexeme at the front of a text is
cut off as that token, unless what follows would go on with it
(`tokensOf_lexeme`): a word or an integer goes on with any character of a word,
`!` and `=` go on with `=`, a slash goes on with a slash.
-/
import Frontend.Lexer.Piece

namespace Frontend

/-! ## The classes -/

/-- A letter or an underscore, then letters, digits and underscores. -/
def IsWord : List Char → Prop
  | [] => False
  | c :: cs => isWordStart c = true ∧ ∀ d ∈ cs, isWordChar d = true

/-- Digits of a base behind its mark, or decimal digits; at least one. -/
def IsInteger (cs : List Char) : Prop :=
  (cs ≠ [] ∧ ∀ c ∈ cs, Radix.decimal.isDigit c = true) ∨
    ∃ m r ds, cs = '0' :: m :: ds ∧ Radix.ofMark? m = some r ∧ ds ≠ [] ∧
      ∀ c ∈ ds, r.isDigit c = true

/-- The text of a token is in the class of its kind. -/
def Token.IsLexeme (t : Token) : Prop :=
  match t.kind with
  | .eof => False
  | .illegal => ∃ c, t.text.toList = [c] ∧ ∀ cs, Pattern.firstAt? (c :: cs) = none
  | .identifier => IsWord t.text.toList ∧ Kind.ofWord t.text = .identifier
  | .integer => IsInteger t.text.toList
  | k => t.text = k.spelling

theorem Token.isLexeme_of_identifier {t : Token} (ht : t.kind = .identifier) :
    t.IsLexeme ↔ IsWord t.text.toList ∧ Kind.ofWord t.text = .identifier := by
  simp only [IsLexeme, ht]

theorem Token.isLexeme_of_integer {t : Token} (ht : t.kind = .integer) :
    t.IsLexeme ↔ IsInteger t.text.toList := by
  simp only [IsLexeme, ht]

theorem Token.IsLexeme.kind_ne_eof {t : Token} (h : t.IsLexeme) : t.kind ≠ .eof := by
  intro ht
  simp only [IsLexeme, ht] at h

/-- Text that follows does not go on with a token of a kind. -/
def Kind.EndsBefore (k : Kind) (rest : List Char) : Prop :=
  match k with
  | .identifier | .integer | .kwFn | .kwLet | .kwTrue | .kwFalse | .kwIf | .kwElse | .kwReturn =>
    ∀ c ∈ rest.head?, isWordChar c = false
  | .assign | .bang => '=' ∉ rest.head?
  | .slash => '/' ∉ rest.head?
  | _ => True

/-! ## Characters -/

theorem char_le_iff {a b : Char} : a ≤ b ↔ a.toNat ≤ b.toNat := by
  rw [Char.le_def, UInt32.le_iff_toNat_le]
  rfl

theorem isWordStart_iff {c : Char} :
    isWordStart c = true ↔
      (97 ≤ c.toNat ∧ c.toNat ≤ 122) ∨ (65 ≤ c.toNat ∧ c.toNat ≤ 90) ∨ c.toNat = 95 := by
  simp only [isWordStart, Bool.or_eq_true, Bool.and_eq_true, decide_eq_true_eq, beq_iff_eq,
    char_le_iff, Char.reduceToNat, ← Char.toNat_inj, or_assoc]

theorem isDigit_decimal_iff {c : Char} :
    Radix.decimal.isDigit c = true ↔ 48 ≤ c.toNat ∧ c.toNat ≤ 57 := by
  have hbase : Radix.decimal.base = 10 := rfl
  constructor
  · intro h
    obtain ⟨d, hd⟩ := Option.isSome_iff_exists.1 h
    have hlt := Radix.digit?_lt hd
    have hv := Option.eq_some_of_filter_eq_some hd
    simp only [Radix.digitValue?, char_le_iff, Char.reduceToNat] at hv
    split at hv
    · next h => exact h
    · split at hv
      · cases hv
        omega
      · split at hv <;> cases hv
        omega
  · intro h
    have hv : Radix.digitValue? c = some (c.toNat - 48) := by
      simp only [Radix.digitValue?, char_le_iff, Char.reduceToNat, if_pos h]
    have hlt : c.toNat - 48 < Radix.decimal.base := by omega
    rw [Radix.isDigit, Radix.digit?, hv, Option.filter_some_pos (by exact decide_eq_true hlt)]
    rfl

/-- A digit of any base may stand inside a word. -/
theorem isWordChar_of_isDigit {r : Radix} {c : Char} (h : r.isDigit c = true) :
    isWordChar c = true := by
  have hv : (Radix.digitValue? c).isSome = true := by
    obtain ⟨d, hd⟩ := Option.isSome_iff_exists.1 h
    exact Option.isSome_of_eq_some (Option.eq_some_of_filter_eq_some hd)
  simp only [Radix.digitValue?, char_le_iff, Char.reduceToNat] at hv
  simp only [isWordChar, Bool.or_eq_true, Bool.and_eq_true, decide_eq_true_eq, isWordStart_iff,
    char_le_iff, Char.reduceToNat]
  split at hv
  · next hd => exact .inr hd
  · split at hv
    · next hl => omega
    · split at hv
      · next hu => omega
      · cases hv

theorem IsWord.isWordChar_head {cs : List Char} (h : IsWord cs) :
    ∃ d ds, cs = d :: ds ∧ isWordChar d = true := by
  cases cs with
  | nil => exact h.elim
  | cons c cs => exact ⟨c, cs, rfl, by rw [isWordChar, h.1, Bool.true_or]⟩

theorem IsInteger.isWordChar_head {cs : List Char} (h : IsInteger cs) :
    ∃ d ds, cs = d :: ds ∧ isWordChar d = true := by
  rcases h with ⟨hne, hall⟩ | ⟨m, r, ds, rfl, -⟩
  · obtain ⟨c, cs, rfl⟩ := List.exists_cons_of_ne_nil hne
    exact ⟨c, cs, rfl, isWordChar_of_isDigit (hall c List.mem_cons_self)⟩
  · exact ⟨'0', m :: ds, rfl, by decide⟩

/-- A base mark may stand inside a word, and is no digit itself. -/
theorem isWordChar_of_ofMark? {m : Char} {r : Radix} (h : Radix.ofMark? m = some r) :
    isWordChar m = true ∧ Radix.decimal.isDigit m = false := by
  unfold Radix.ofMark? at h
  split at h <;> first | decide | cases h

theorem IsInteger.isWordChar {cs : List Char} (h : IsInteger cs) :
    ∀ c ∈ cs, isWordChar c = true := by
  intro c hc
  rcases h with ⟨-, hall⟩ | ⟨m, r, ds, rfl, hm, -, hall⟩
  · exact isWordChar_of_isDigit (hall c hc)
  · rcases List.mem_cons.1 hc with rfl | hc
    · exact rfl
    · rcases List.mem_cons.1 hc with rfl | hc
      · exact (isWordChar_of_ofMark? hm).1
      · exact isWordChar_of_isDigit (hall c hc)

theorem isWordStart_of_isDigit {c : Char} (h : Radix.decimal.isDigit c = true) :
    isWordStart c = false := by
  rw [isDigit_decimal_iff] at h
  rw [Bool.eq_false_iff, Ne, isWordStart_iff]
  omega

/-- A blank begins neither a word nor an integer. -/
theorem isWordStart_of_isBlank {c : Char} (h : Text.isBlank c = true) :
    isWordStart c = false ∧ Radix.decimal.isDigit c = false := by
  rw [Text.isBlank, Text.inRanges_iff] at h
  simp only [Text.blankRanges, List.mem_cons, List.not_mem_nil, or_false, exists_eq_or_imp,
    exists_eq_left] at h
  rw [Bool.eq_false_iff, Bool.eq_false_iff, Ne, Ne, isWordStart_iff, isDigit_decimal_iff]
  omega

/-! ## Which pattern matches -/

namespace Pattern

section

variable (c : Char) (cs : List Char)

theorem matchesAt_word : word.matchesAt (c :: cs) = isWordStart c := by
  cases h : isWordStart c <;> simp [matchesAt, take, takeWord, h]

theorem matchesAt_integer : integer.matchesAt (c :: cs) = Radix.decimal.isDigit c := by
  have hzero : Radix.decimal.isDigit '0' = true := by decide
  simp only [matchesAt, take]
  unfold takeInteger
  split
  · next m ds heq =>
    cases heq
    split
    · split <;> simp [hzero]
    · simp [hzero]
  · cases h : Radix.decimal.isDigit c <;> simp [h]

theorem matchesAt_blanks : blanks.matchesAt (c :: cs) = Text.isBlank c := by
  cases h : Text.isBlank c <;> simp [matchesAt, take, h]

end

theorem matchesAt_comment (cs : List Char) :
    comment.matchesAt cs = ['/', '/'].isPrefixOf cs := by
  simp only [matchesAt, take]
  unfold takeComment
  split
  · rfl
  · next hne =>
    refine Eq.symm (Bool.eq_false_iff.2 fun h => ?_)
    obtain ⟨ds, hds⟩ := List.isPrefixOf_iff_prefix.1 h
    exact hne ds hds.symm

theorem matchesAt_mark (k : Kind) (cs : List Char) :
    (mark k).matchesAt cs = (!k.spelling.toList.isEmpty && k.spelling.toList.isPrefixOf cs) := by
  simp only [matchesAt, take, takeText]
  split
  · next h => rw [h, Bool.and_true]
  · next h =>
    rw [Bool.eq_false_iff.2 h, Bool.and_false]
    rfl

theorem firstAt?_word {c : Char} (h : isWordStart c = true) (cs : List Char) :
    firstAt? (c :: cs) = some word := by
  rw [firstAt?, table, List.find?_cons_of_pos (by rw [matchesAt_word, h])]

theorem firstAt?_integer {c : Char} (h : Radix.decimal.isDigit c = true) (cs : List Char) :
    firstAt? (c :: cs) = some integer := by
  rw [firstAt?, table,
    List.find?_cons_of_neg (by rw [matchesAt_word, isWordStart_of_isDigit h]; decide),
    List.find?_cons_of_pos (by rw [matchesAt_integer, h])]

theorem firstAt?_blanks {c : Char} (h : Text.isBlank c = true) (cs : List Char) :
    firstAt? (c :: cs) = some blanks := by
  obtain ⟨hword, hdigit⟩ := isWordStart_of_isBlank h
  rw [firstAt?, table, List.find?_cons_of_neg (by rw [matchesAt_word, hword]; decide),
    List.find?_cons_of_neg (by rw [matchesAt_integer, hdigit]; decide),
    List.find?_cons_of_pos (by rw [matchesAt_blanks, h])]

/-- The order of the table never hides a mark that stands where it ends. -/
theorem firstAt?_mark {k : Kind} (hk : mark k ∈ table) {rest : List Char}
    (hr : k.EndsBefore rest) : firstAt? (k.spelling.toList ++ rest) = some (mark k) := by
  cases k <;> first
    | exact absurd hk (by decide)
    | cases rest <;>
        simp +decide [Kind.EndsBefore, firstAt?, table, Kind.spelling, matchesAt_word,
          matchesAt_integer, matchesAt_blanks, matchesAt_comment, matchesAt_mark,
          List.isPrefixOf] at hr ⊢
  -- What is left are the three marks that a longer pattern begins with.
  all_goals exact fun h => hr h.symm

/-- Where no pattern matches, the character alone is the cause. -/
theorem firstAt?_eq_none {c : Char} {cs : List Char} (h : firstAt? (c :: cs) = none)
    (ds : List Char) : firstAt? (c :: ds) = none := by
  simp [firstAt?, table, Kind.spelling, matchesAt_word, matchesAt_integer, matchesAt_blanks,
    matchesAt_comment, matchesAt_mark, List.isPrefixOf] at h ⊢
  -- A longer mark begins with a character that is a mark by itself.
  grind

end Pattern

/-! ## What a pattern takes is in its class -/

theorem takeWhile_append_of_stops {p : Char → Bool} {cs rest : List Char}
    (h : ∀ c ∈ cs, p c = true) (hr : ∀ c ∈ rest.head?, p c = false) :
    (cs ++ rest).takeWhile p = cs := by
  rw [List.takeWhile_append_of_pos h]
  cases rest with
  | nil => rw [List.takeWhile_nil, List.append_nil]
  | cons c rest =>
    rw [List.takeWhile_cons_of_neg (Bool.eq_false_iff.1 (hr c rfl)), List.append_nil]

namespace Pattern

theorem isWord_takeWord {cs : List Char} (h : takeWord cs ≠ []) : IsWord (takeWord cs) := by
  cases cs with
  | nil => exact absurd rfl h
  | cons c cs =>
    simp only [takeWord] at h ⊢
    split at h
    · next hc =>
      rw [if_pos hc]
      exact ⟨hc, List.all_eq_true.1 List.all_takeWhile⟩
    · exact absurd rfl h

theorem takeWord_append {cs rest : List Char} (h : IsWord cs)
    (hr : ∀ c ∈ rest.head?, isWordChar c = false) : takeWord (cs ++ rest) = cs := by
  cases cs with
  | nil => exact h.elim
  | cons c cs =>
    rw [List.cons_append, takeWord, if_pos h.1, takeWhile_append_of_stops h.2 hr]

theorem takeInteger_of_ofMark? {cs : List Char}
    (h : ∀ m ds, cs = '0' :: m :: ds → Radix.ofMark? m = none) :
    takeInteger cs = cs.takeWhile Radix.decimal.isDigit := by
  unfold takeInteger
  split
  · next m ds => rw [h m ds rfl]
  · rfl

theorem isInteger_takeInteger {cs : List Char} (h : takeInteger cs ≠ []) :
    IsInteger (takeInteger cs) := by
  by_cases hm : ∃ m r ds, cs = '0' :: m :: ds ∧ Radix.ofMark? m = some r
  · obtain ⟨m, r, ds, rfl, hr⟩ := hm
    rw [takeInteger, hr]
    show IsInteger (match ds.takeWhile r.isDigit with
      | [] => ['0']
      | d :: ds => '0' :: m :: d :: ds)
    split
    · exact .inl ⟨List.cons_ne_nil _ _, List.all_eq_true.1 (by decide)⟩
    · next d es hes =>
      refine .inr ⟨m, r, d :: es, rfl, hr, List.cons_ne_nil _ _, ?_⟩
      rw [← hes]
      exact List.all_eq_true.1 List.all_takeWhile
  · have htake : takeInteger cs = cs.takeWhile Radix.decimal.isDigit :=
      takeInteger_of_ofMark? fun m ds hcs =>
        Option.eq_none_iff_forall_not_mem.2 fun r hr => hm ⟨m, r, ds, hcs, hr⟩
    rw [htake] at h ⊢
    exact .inl ⟨h, List.all_eq_true.1 List.all_takeWhile⟩

/-- A zero before a base mark is no integer by itself here: the mark is a character of a
word, so it does not stand behind an integer that ends. -/
theorem takeInteger_append {cs rest : List Char} (h : IsInteger cs)
    (hr : ∀ c ∈ rest.head?, isWordChar c = false) : takeInteger (cs ++ rest) = cs := by
  have hdigit (r : Radix) : ∀ c ∈ rest.head?, r.isDigit c = false := by
    intro c hc
    refine Bool.eq_false_iff.2 fun hd => ?_
    exact absurd (hr c hc) (by rw [isWordChar_of_isDigit hd]; decide)
  rcases h with ⟨hne, hall⟩ | ⟨m, r, ds, rfl, hm, hne, hall⟩
  · rw [takeInteger_of_ofMark?, takeWhile_append_of_stops hall (hdigit _)]
    intro m ds hcs
    refine Option.eq_none_iff_forall_not_mem.2 fun r hm => ?_
    obtain ⟨hword, hnot⟩ := isWordChar_of_ofMark? hm
    match cs, hne with
    | [_], _ =>
      obtain ⟨-, rfl⟩ := List.cons.inj hcs
      rw [hr m rfl] at hword
      cases hword
    | _ :: d :: _, _ =>
      obtain ⟨rfl, -⟩ := List.cons.inj (List.cons.inj hcs).2
      rw [hall d (by simp)] at hnot
      cases hnot
  · obtain ⟨d, ds, rfl⟩ := List.exists_cons_of_ne_nil hne
    rw [List.cons_append, List.cons_append, takeInteger, hm]
    simp only [takeWhile_append_of_stops hall (hdigit r)]

/-- The classes are what the patterns take whole. -/
theorem isWord_iff {cs : List Char} : IsWord cs ↔ cs ≠ [] ∧ word.take cs = cs := by
  constructor
  · intro h
    have htake : takeWord (cs ++ []) = cs := takeWord_append h (by rintro _ ⟨⟩)
    rw [List.append_nil] at htake
    obtain ⟨c, ds, rfl, -⟩ := h.isWordChar_head
    exact ⟨List.cons_ne_nil c ds, htake⟩
  · rintro ⟨hne, htake⟩
    have htake : takeWord cs = cs := htake
    exact htake ▸ isWord_takeWord (htake.symm ▸ hne)

theorem isInteger_iff {cs : List Char} : IsInteger cs ↔ cs ≠ [] ∧ integer.take cs = cs := by
  constructor
  · intro h
    have htake : takeInteger (cs ++ []) = cs := takeInteger_append h (by rintro _ ⟨⟩)
    rw [List.append_nil] at htake
    obtain ⟨c, ds, rfl, -⟩ := h.isWordChar_head
    exact ⟨List.cons_ne_nil c ds, htake⟩
  · rintro ⟨hne, htake⟩
    have htake : takeInteger cs = cs := htake
    exact htake ▸ isInteger_takeInteger (htake.symm ▸ hne)

end Pattern

/-! ## Tokens have lexemes -/

theorem reserved?_eq_some {s : String} {k : Kind} (h : Kind.reserved? s = some k) :
    k ∈ Kind.reserved ∧ s = k.spelling := by
  refine ⟨List.mem_of_find?_eq_some h, ?_⟩
  have hs := List.find?_some h
  exact (beq_iff_eq.1 hs).symm

/-- A mark or a reserved word has its spelling for its text. -/
theorem Token.isLexeme_iff_spelling {k : Kind}
    (h : k ∈ Kind.reserved ∨ .mark k ∈ Pattern.table) (s : String) :
    (Token.mk k s).IsLexeme ↔ s = k.spelling := by
  cases k <;> first | exact Iff.rfl | exact absurd h (by decide)

theorem Token.isLexeme_of_isWord {w : List Char} (h : IsWord w) :
    (Token.mk (Kind.ofWord (String.ofList w)) (String.ofList w)).IsLexeme := by
  cases hk : Kind.reserved? (String.ofList w) with
  | none =>
    have hkind : Kind.ofWord (String.ofList w) = .identifier := by rw [Kind.ofWord, hk]; rfl
    rw [hkind]
    exact ⟨by rwa [String.toList_ofList], hkind⟩
  | some k =>
    obtain ⟨hmem, htext⟩ := reserved?_eq_some hk
    rw [Kind.ofWord, hk, htext]
    exact (isLexeme_iff_spelling (.inl hmem) _).2 rfl

theorem Pattern.take_mark {k : Kind} {cs : List Char} (h : (mark k).take cs ≠ []) :
    (mark k).take cs = k.spelling.toList := by
  simp only [take, takeText] at h ⊢
  split at h
  · next hp => rw [if_pos hp]
  · exact absurd rfl h

theorem Piece.isLexeme_of_front {c : Char} {cs : List Char} {t : Token}
    (h : (Piece.front c cs).token? = some t) : t.IsLexeme := by
  unfold Piece.front at h
  split at h
  · next p hp =>
    have hne := Pattern.matchesAt_iff.1 (Pattern.matchesAt_of_firstAt? hp)
    cases p with
    | word =>
      have hw : IsWord (Pattern.takeWord (c :: cs)) := Pattern.isWord_takeWord hne
      cases h
      exact Token.isLexeme_of_isWord hw
    | integer =>
      cases h
      show IsInteger (String.ofList _).toList
      rw [String.toList_ofList]
      exact Pattern.isInteger_takeInteger hne
    | blanks => cases h
    | comment => cases h
    | mark k =>
      cases h
      rw [Pattern.take_mark hne]
      show (Token.mk k (String.ofList k.spelling.toList)).IsLexeme
      rw [String.ofList_toList]
      exact (Token.isLexeme_iff_spelling (.inr (List.mem_of_find?_eq_some hp)) _).2 rfl
  · next hnone =>
    cases h
    exact ⟨c, by rw [String.toList_ofList], fun ds => Pattern.firstAt?_eq_none hnone ds⟩

theorem isLexeme_of_mem_tokensOf {cs : List Char} : ∀ t ∈ tokensOf cs, t.IsLexeme := by
  intro t ht
  rw [tokensOf] at ht
  fun_induction pieces cs with
  | case1 => cases ht
  | case2 c cs ih =>
    rw [List.filterMap_cons] at ht
    split at ht
    · exact ih ht
    · next u hu =>
      rcases List.mem_cons.1 ht with rfl | ht
      · exact Piece.isLexeme_of_front hu
      · exact ih ht

/-- Of the tokens of a text only the last, the end of input, is no lexeme. -/
theorem isLexeme_of_mem_tokenize {source : String} {t : Token} (ht : t ∈ tokenize source)
    (hne : t.kind ≠ .eof) : t.IsLexeme := by
  rcases List.mem_append.1 ht with hmem | heof
  · exact isLexeme_of_mem_tokensOf t hmem
  · obtain rfl := List.mem_singleton.1 heof
    exact absurd rfl hne

/-! ## Reading a lexeme back -/

theorem nextToken?_of_take {p : Pattern} {w rest : List Char} {k : Kind}
    (hf : Pattern.firstAt? (w ++ rest) = some p) (ht : p.take (w ++ rest) = w)
    (hk : p.kind? w = some k) :
    nextToken? (w ++ rest) = some (⟨k, String.ofList w⟩, rest) := by
  have hne := Pattern.matchesAt_iff.1 (Pattern.matchesAt_of_firstAt? hf)
  rw [ht] at hne
  obtain ⟨c, cs, rfl⟩ := List.exists_cons_of_ne_nil hne
  rw [List.cons_append] at hf ht ⊢
  have hfront : Piece.front c (cs ++ rest) = ⟨some k, c :: cs⟩ := by
    rw [Piece.front, hf, ← hk, ← ht]
  rw [nextToken?, hfront]
  simp [Piece.token?, Piece.behind, hfront]

theorem nextToken?_word {w rest : List Char} (hw : IsWord w)
    (hr : ∀ c ∈ rest.head?, isWordChar c = false) :
    nextToken? (w ++ rest) =
      some (⟨Kind.ofWord (String.ofList w), String.ofList w⟩, rest) := by
  refine nextToken?_of_take (p := .word) ?_ (Pattern.takeWord_append hw hr) rfl
  cases w with
  | nil => exact hw.elim
  | cons c w => exact Pattern.firstAt?_word hw.1 _

theorem nextToken?_integer {w rest : List Char} (hw : IsInteger w)
    (hr : ∀ c ∈ rest.head?, isWordChar c = false) :
    nextToken? (w ++ rest) = some (⟨.integer, String.ofList w⟩, rest) := by
  refine nextToken?_of_take (p := .integer) ?_ (Pattern.takeInteger_append hw hr) rfl
  rcases hw with ⟨hne, hall⟩ | ⟨m, r, ds, rfl, -⟩
  · obtain ⟨c, w, rfl⟩ := List.exists_cons_of_ne_nil hne
    exact Pattern.firstAt?_integer (hall c List.mem_cons_self) _
  · exact Pattern.firstAt?_integer (by decide) _

theorem nextToken?_mark {k : Kind} (hk : .mark k ∈ Pattern.table) {rest : List Char}
    (hr : k.EndsBefore rest) :
    nextToken? (k.spelling.toList ++ rest) = some (⟨k, k.spelling⟩, rest) := by
  have htake : (Pattern.mark k).take (k.spelling.toList ++ rest) = k.spelling.toList :=
    if_pos (List.isPrefixOf_iff_prefix.2 ⟨rest, rfl⟩)
  have h := nextToken?_of_take (Pattern.firstAt?_mark hk hr) htake rfl
  rwa [String.ofList_toList] at h

theorem nextToken?_reserved {k : Kind} (hk : k ∈ Kind.reserved) {rest : List Char}
    (hr : k.EndsBefore rest) :
    nextToken? (k.spelling.toList ++ rest) = some (⟨k, k.spelling⟩, rest) := by
  have hword : IsWord k.spelling.toList ∧ Kind.ofWord k.spelling = k := by
    cases k <;> first
      | exact absurd hk (by decide)
      | exact ⟨⟨by decide, List.all_eq_true.1 (by decide)⟩, by decide⟩
  have hclear : ∀ c ∈ rest.head?, isWordChar c = false := by
    cases k <;> first
      | exact absurd hk (by decide)
      | exact hr
  have h := nextToken?_word hword.1 hclear
  rwa [String.ofList_toList, hword.2] at h

theorem nextToken?_illegal {c : Char} (hc : ∀ cs, Pattern.firstAt? (c :: cs) = none)
    (rest : List Char) :
    nextToken? (c :: rest) = some (⟨.illegal, String.ofList [c]⟩, rest) := by
  have hfront : Piece.front c rest = ⟨some .illegal, [c]⟩ := by rw [Piece.front, hc]
  rw [nextToken?, hfront]
  simp [Piece.token?, Piece.behind, hfront]

/-- A lexeme that ends where it should is the next token. -/
theorem nextToken?_lexeme {t : Token} (ht : t.IsLexeme) {rest : List Char}
    (hr : t.kind.EndsBefore rest) : nextToken? (t.text.toList ++ rest) = some (t, rest) := by
  obtain ⟨k, s⟩ := t
  by_cases hspelled : k ∈ Kind.reserved ∨ .mark k ∈ Pattern.table
  · obtain rfl := (Token.isLexeme_iff_spelling hspelled s).1 ht
    exact hspelled.elim (nextToken?_reserved · hr) (nextToken?_mark · hr)
  · cases k with
    | eof => exact ht.elim
    | illegal =>
      obtain ⟨c, hc, hnone⟩ := ht
      have h := nextToken?_illegal hnone rest
      rw [← hc, String.ofList_toList] at h
      rw [hc]
      exact h
    | identifier =>
      have h := nextToken?_word ht.1 hr
      rwa [String.ofList_toList, ht.2] at h
    | integer =>
      have h := nextToken?_integer ht hr
      rwa [String.ofList_toList] at h
    | _ => exact absurd (by decide) hspelled

theorem tokensOf_lexeme {t : Token} (ht : t.IsLexeme) {rest : List Char}
    (hr : t.kind.EndsBefore rest) : tokensOf (t.text.toList ++ rest) = t :: tokensOf rest :=
  tokensOf_of_nextToken?_eq_some (nextToken?_lexeme ht hr)

/-! ## Blanks -/

theorem tokensOf_cons_blank {c : Char} (hc : Text.isBlank c = true) (cs : List Char) :
    tokensOf (c :: cs) = tokensOf (cs.dropWhile Text.isBlank) := by
  have hfront : Piece.front c cs = ⟨none, c :: cs.takeWhile Text.isBlank⟩ := by
    rw [Piece.front, Pattern.firstAt?_blanks hc]
    simp [Pattern.take, Pattern.kind?, hc]
  have hbehind : Piece.behind c cs = cs.dropWhile Text.isBlank := by
    have h := Piece.text_append_behind c cs
    rw [hfront] at h
    have htail : cs.takeWhile Text.isBlank ++ Piece.behind c cs = cs := (List.cons.inj h).2
    refine List.append_cancel_left (htail.trans ?_)
    exact List.takeWhile_append_dropWhile.symm
  rw [tokensOf, pieces, hfront, hbehind, List.filterMap_cons_none rfl, tokensOf]

/-- What only separates leaves no token. -/
theorem tokensOf_blank {c : Char} (hc : Text.isBlank c = true) (cs : List Char) :
    tokensOf (c :: cs) = tokensOf cs := by
  rw [tokensOf_cons_blank hc]
  cases cs with
  | nil => rfl
  | cons d ds =>
    by_cases hd : Text.isBlank d = true
    · rw [tokensOf_cons_blank hd, List.dropWhile_cons_of_pos hd]
    · rw [List.dropWhile_cons_of_neg hd]

end Frontend
