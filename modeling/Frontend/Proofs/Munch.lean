/-
# `Frontend.Proofs.Munch` — the longest match, and what is left between the tokens

The table of patterns is searched in order, and the first pattern that matches
takes what it can.  That this is the longest match is no matter of the search:
it holds because each pattern takes the longest of its own texts
(`isPrefix_take`), and because a pattern that another one comes before either
matches at other characters or takes a single one (`eq_of_firstAt?`).  `Matches`
says which texts a pattern has, without the way in which it takes them.

Blanks and comments make no token.  `Gap` says what they are, and `Spaced` that a
text is made of lexemes with nothing else between them.

A position is counted in bytes.  The pieces of a text are whole characters, so
behind any number of them text can be read again, and behind one more the
position is a later one.
-/
import Frontend.Lexer.Session
import Frontend.Proofs.Lexeme
import Frontend.Proofs.Stream

namespace Frontend

/-! ## The texts of a pattern -/

namespace Pattern

/-- The whole texts of a pattern, said without the way in which it takes them. -/
def Matches : Pattern → List Char → Prop
  | word, w => IsWord w
  | integer, w => IsInteger w
  | blanks, w => w ≠ [] ∧ ∀ c ∈ w, Text.isBlank c = true
  | comment, w => ∃ cs, w = '/' :: '/' :: cs ∧ ∀ c ∈ cs, c ≠ '\n'
  | mark k, w => w = k.spelling.toList

theorem isPrefix_takeWhile {p : Char → Bool} {w cs : List Char} (hw : ∀ c ∈ w, p c = true)
    (h : w <+: cs) : w <+: cs.takeWhile p := by
  obtain ⟨rest, rfl⟩ := h
  rw [List.takeWhile_append_of_pos hw]
  exact List.prefix_append _ _

variable {p q : Pattern} {c : Char} {cs w : List Char}

/-- What a pattern takes is one of its texts. -/
theorem matches_take (h : p.take cs ≠ []) : p.Matches (p.take cs) := by
  cases p with
  | word => exact isWord_takeWord h
  | integer => exact isInteger_takeInteger h
  | blanks => exact ⟨h, List.all_eq_true.1 List.all_takeWhile⟩
  | comment =>
    simp only [take] at h ⊢
    unfold takeComment at h ⊢
    split at h
    · next cs =>
      refine ⟨_, rfl, fun c hc => ?_⟩
      simpa using List.all_eq_true.1 List.all_takeWhile c hc
    · exact absurd rfl h
  | mark k => exact take_mark h

theorem isPrefix_takeInteger (hw : IsInteger w) (h : w <+: cs) : w <+: takeInteger cs := by
  rcases hw with ⟨hne, hall⟩ | ⟨m, r, ds, rfl, hm, hne, hall⟩
  · by_cases hmark : ∃ m r ds, cs = '0' :: m :: ds ∧ Radix.ofMark? m = some r
    · -- The base mark is no decimal digit, so the zero before it is all there is.
      obtain ⟨m, r, ds, rfl, hr⟩ := hmark
      obtain ⟨d, w, rfl⟩ := List.exists_cons_of_ne_nil hne
      obtain ⟨rfl, htail⟩ := List.cons_prefix_cons.1 h
      have hw : w = [] := by
        cases w with
        | nil => rfl
        | cons e w =>
          obtain ⟨rfl, -⟩ := List.cons_prefix_cons.1 htail
          have hdigit := hall e (by simp)
          rw [(isWordChar_of_ofMark? hr).2] at hdigit
          cases hdigit
      subst hw
      simp only [takeInteger, hr]
      split <;> exact List.cons_prefix_cons.2 ⟨rfl, List.nil_prefix⟩
    · rw [takeInteger_of_ofMark?]
      · exact isPrefix_takeWhile hall h
      · intro m ds hcs
        exact Option.eq_none_iff_forall_not_mem.2 fun r hr => hmark ⟨m, r, ds, hcs, hr⟩
  · obtain ⟨rest, rfl⟩ := h
    obtain ⟨d, ds, rfl⟩ := List.exists_cons_of_ne_nil hne
    have htake : ((d :: ds) ++ rest).takeWhile r.isDigit = d :: (ds ++ rest.takeWhile r.isDigit) :=
      List.takeWhile_append_of_pos hall
    simp only [List.cons_append, takeInteger, hm] at htake ⊢
    rw [htake]
    exact ⟨rest.takeWhile r.isDigit, rfl⟩

/-- A pattern takes no less than any of its texts that stands at the front. -/
theorem isPrefix_take (hw : p.Matches w) (h : w <+: cs) : w <+: p.take cs := by
  cases p with
  | word =>
    obtain ⟨rest, rfl⟩ := h
    cases w with
    | nil => exact hw.elim
    | cons c w =>
      have hprefix := isPrefix_takeWhile hw.2 (List.prefix_append w rest)
      simpa only [take, List.cons_append, takeWord, if_pos hw.1] using
        List.cons_prefix_cons.2 ⟨rfl, hprefix⟩
  | integer => exact isPrefix_takeInteger hw h
  | blanks => exact isPrefix_takeWhile hw.2 h
  | comment =>
    obtain ⟨rest, rfl⟩ := h
    obtain ⟨ds, rfl, hds⟩ := hw
    have hprefix : ds <+: (ds ++ rest).takeWhile (· != '\n') :=
      isPrefix_takeWhile (fun c hc => bne_iff_ne.2 (hds c hc)) (List.prefix_append ds rest)
    exact List.cons_prefix_cons.2 ⟨rfl, List.cons_prefix_cons.2 ⟨rfl, hprefix⟩⟩
  | mark k =>
    obtain rfl := hw
    have htake : (mark k).take cs = k.spelling.toList := if_pos (List.isPrefixOf_iff_prefix.2 h)
    exact htake ▸ List.prefix_refl _

/-- No pattern of the table has the empty text. -/
theorem Matches.ne_nil (hp : p ∈ table) (hw : p.Matches w) : w ≠ [] := by
  rintro rfl
  cases p with
  | word => exact hw
  | integer =>
    obtain ⟨c, ds, hcs, -⟩ := IsInteger.isWordChar_head hw
    cases hcs
  | blanks => exact hw.1 rfl
  | comment =>
    obtain ⟨cs, hcs, -⟩ := hw
    cases hcs
  | mark k =>
    have hspelling : [] = k.spelling.toList := hw
    cases k <;> first | exact absurd hp (by decide) | exact absurd hspelling (by decide)

/-! ## The first pattern that matches -/

theorem firstAt?_comment (h : ['/', '/'].isPrefixOf cs = true) : firstAt? cs = some comment := by
  obtain ⟨ds, rfl⟩ := List.isPrefixOf_iff_prefix.1 h
  have hslash : isWordStart '/' = false ∧ Radix.decimal.isDigit '/' = false ∧
      Text.isBlank '/' = false := by decide
  simp only [List.cons_append, List.nil_append] at h ⊢
  rw [firstAt?, table, List.find?_cons_of_neg (by rw [matchesAt_word, hslash.1]; decide),
    List.find?_cons_of_neg (by rw [matchesAt_integer, hslash.2.1]; decide),
    List.find?_cons_of_neg (by rw [matchesAt_blanks, hslash.2.2]; decide),
    List.find?_cons_of_pos (by rw [matchesAt_comment, h])]

/-- A mark of one character takes the least there is to take, and each of the others is the
first pattern that matches wherever it matches. -/
theorem eq_of_firstAt? (hp : firstAt? cs = some p) (hq : q ∈ table) (hm : q.matchesAt cs = true) :
    p = q ∨ (q.take cs).length = 1 := by
  have hfirst (h : firstAt? cs = some q) : p = q := Option.some.inj (hp.symm.trans h)
  have hne := matchesAt_iff.1 hm
  obtain ⟨c, cs, rfl⟩ : ∃ c ds, cs = c :: ds :=
    List.exists_cons_of_ne_nil fun hnil => hne (List.prefix_nil.1 (hnil ▸ take_isPrefix q cs))
  cases q with
  | word => exact .inl (hfirst (firstAt?_word (matchesAt_word c cs ▸ hm) cs))
  | integer => exact .inl (hfirst (firstAt?_integer (matchesAt_integer c cs ▸ hm) cs))
  | blanks => exact .inl (hfirst (firstAt?_blanks (matchesAt_blanks c cs ▸ hm) cs))
  | comment => exact .inl (hfirst (firstAt?_comment (matchesAt_comment (c :: cs) ▸ hm)))
  | mark k =>
    have htake := take_mark hne
    obtain ⟨rest, hrest⟩ := htake ▸ take_isPrefix (mark k) (c :: cs)
    cases k <;> first
      | exact absurd hq (by decide)
      | exact .inr (congrArg List.length htake)
      | exact .inl (hfirst (hrest ▸ firstAt?_mark hq trivial))

/-- The first pattern of the table that matches takes the most. -/
theorem length_take_le (hp : firstAt? cs = some p) (hq : q ∈ table) :
    (q.take cs).length ≤ (p.take cs).length := by
  by_cases hm : q.matchesAt cs = true
  · rcases eq_of_firstAt? hp hq hm with rfl | hone
    · exact Nat.le_refl _
    · rw [hone]
      exact List.length_pos_iff.2 (matchesAt_iff.1 (matchesAt_of_firstAt? hp))
  · rw [matchesAt_iff, Decidable.not_not] at hm
    rw [hm]
    exact Nat.zero_le _

/-- The first pattern of the table that matches at a text, with the longest of all the
texts that a pattern of the table has at its front. -/
structure Longest (cs : List Char) (p : Pattern) (w : List Char) : Prop where
  firstAt?_eq : firstAt? cs = some p
  matched : p.Matches w
  isPrefix : w <+: cs
  length_le : ∀ q ∈ table, ∀ v, q.Matches v → v <+: cs → v.length ≤ w.length

theorem longest_take (hp : firstAt? cs = some p) : Longest cs p (p.take cs) where
  firstAt?_eq := hp
  matched := matches_take (matchesAt_iff.1 (matchesAt_of_firstAt? hp))
  isPrefix := take_isPrefix p cs
  length_le _ hq _ hv h := Nat.le_trans (isPrefix_take hv h).length_le (length_take_le hp hq)

/-- Where no pattern matches, no pattern has a text. -/
theorem not_isPrefix_of_firstAt? (h : firstAt? cs = none) (hq : q ∈ table) (hw : q.Matches w) :
    ¬ w <+: cs := by
  intro hprefix
  have hnone := List.find?_eq_none.1 h q hq
  rw [matchesAt_iff, Decidable.not_not] at hnone
  exact Matches.ne_nil hq hw (List.prefix_nil.1 (hnone ▸ isPrefix_take hw hprefix))

end Pattern

namespace Piece

/-- A piece as it is cut off the front of a text: the longest match of the first pattern
that matches, or one character with which no pattern has a text. -/
inductive CutOff (cs : List Char) : Piece → Prop where
  | longest {p : Pattern} {w : List Char} (h : Pattern.Longest cs p w) : CutOff cs ⟨p.kind? w, w⟩
  | illegal {c : Char} {ds : List Char} (hcs : cs = c :: ds)
      (h : ∀ q ∈ Pattern.table, ∀ v, q.Matches v → ¬ v <+: cs) : CutOff cs ⟨some .illegal, [c]⟩

theorem cutOff_front (c : Char) (cs : List Char) : CutOff (c :: cs) (front c cs) := by
  unfold front
  split
  · next p hp => exact .longest (Pattern.longest_take hp)
  · next hnone => exact .illegal rfl fun _ hq _ hv => Pattern.not_isPrefix_of_firstAt? hnone hq hv

end Piece

/-! ## Between the tokens -/

/-- Runs of blanks and comments in front of a text.  A comment runs to the next newline
or to the end. -/
inductive Gap (rest : List Char) : List Char → Prop where
  | nil : Gap rest []
  | blanks {w g : List Char} (hw : Pattern.blanks.Matches w) (hg : Gap rest g) : Gap rest (w ++ g)
  | comment {w g : List Char} (hw : Pattern.comment.Matches w)
      (hend : ∀ c ∈ (g ++ rest).head?, c = '\n') (hg : Gap rest g) : Gap rest (w ++ g)

/-- A text is made of lexemes, with gaps before, between and behind them. -/
inductive Spaced : List Token → List Char → Prop where
  | nil {g : List Char} (hg : Gap [] g) : Spaced [] g
  | cons {t : Token} {ts : List Token} {g rest : List Char} (ht : t.IsLexeme)
      (hg : Gap (t.text.toList ++ rest) g) (h : Spaced ts rest) :
      Spaced (t :: ts) (g ++ (t.text.toList ++ rest))

namespace Spaced

variable {ts : List Token} {w rest : List Char}

theorem blanks (hw : Pattern.blanks.Matches w) (h : Spaced ts rest) : Spaced ts (w ++ rest) := by
  cases h with
  | nil hg => exact .nil (hg.blanks hw)
  | cons ht hg h =>
    rw [← List.append_assoc]
    exact .cons ht (hg.blanks hw) h

theorem comment (hw : Pattern.comment.Matches w) (hend : ∀ c ∈ rest.head?, c = '\n')
    (h : Spaced ts rest) : Spaced ts (w ++ rest) := by
  cases h with
  | nil hg => exact .nil (hg.comment hw (by rwa [List.append_nil]))
  | cons ht hg h =>
    rw [← List.append_assoc]
    exact .cons ht (hg.comment hw hend) h

end Spaced

/-- Behind a comment the line or the text ends. -/
theorem Pattern.head?_of_takeComment {cs rest : List Char} (hm : comment.matchesAt cs = true)
    (h : takeComment cs ++ rest = cs) : ∀ c ∈ rest.head?, c = '\n' := by
  rw [matchesAt_comment] at hm
  obtain ⟨ds, rfl⟩ := List.isPrefixOf_iff_prefix.1 hm
  have hline : ds.takeWhile (· != '\n') ++ rest = ds := (List.cons.inj (List.cons.inj h).2).2
  have hrest : rest = ds.dropWhile (· != '\n') :=
    List.append_cancel_left (hline.trans List.takeWhile_append_dropWhile.symm)
  have hhead := List.head?_dropWhile_not (· != '\n') ds
  intro c hc
  rw [← hrest, hc] at hhead
  simpa using hhead

/-- Cutting a text up leaves its tokens, and nothing between them but gaps. -/
theorem spaced_tokensOf (cs : List Char) : Spaced (tokensOf cs) cs := by
  rw [tokensOf]
  fun_induction pieces cs with
  | case1 => exact .nil .nil
  | case2 c cs ih =>
    have happend := Piece.text_append_behind c cs
    cases ht : (Piece.front c cs).token? with
    | some t =>
      have htext : (Piece.front c cs).text = t.text.toList := by
        obtain ⟨k, -, rfl⟩ := Option.map_eq_some_iff.1 ht
        exact String.toList_ofList.symm
      rw [htext] at happend
      rw [List.filterMap_cons_some ht]
      exact happend ▸ .cons (Piece.isLexeme_of_front ht) .nil ih
    | none =>
      rw [List.filterMap_cons_none ht]
      have hkind : (Piece.front c cs).kind? = none := Option.map_eq_none_iff.1 ht
      cases hp : Pattern.firstAt? (c :: cs) with
      | none => simp [Piece.front, hp] at hkind
      | some p =>
        have hm := Pattern.matchesAt_of_firstAt? hp
        have hw := Pattern.matches_take (Pattern.matchesAt_iff.1 hm)
        simp only [Piece.front, hp] at happend hkind
        cases p with
        | word | integer | mark => cases hkind
        | blanks => exact happend ▸ ih.blanks hw
        | comment => exact happend ▸ ih.comment hw (Pattern.head?_of_takeComment hm happend)

/-! ## The position -/

theorem dropBytes_append (w rest : List Char) :
    dropBytes (String.ofList w).utf8ByteSize (w ++ rest) = (0, rest) := by
  induction w with
  | nil =>
    cases rest with
    | nil => rfl
    | cons c rest => exact if_neg (Nat.not_le.2 c.utf8Size_pos)
  | cons c w ih =>
    rw [String.ofList_cons, String.utf8ByteSize_append, String.utf8ByteSize_singleton,
      List.cons_append, dropBytes, if_pos (Nat.le_add_right _ _), Nat.add_sub_cancel_left, ih]

namespace Lexer

/-- Behind whole characters text can be read again. -/
theorem advance_ofChars (w rest : List Char) :
    (ofChars (w ++ rest)).advance (String.ofList w).utf8ByteSize = ofChars rest := by
  simp only [ofChars, advance, Nat.zero_add, dropBytes_append]

/-- A request cuts off one piece and moves behind it, and goes on if the piece makes no
token. -/
theorem next?_ofChars_cons (c : Char) (cs : List Char) :
    (ofChars (c :: cs)).next? =
      (Piece.front c cs).token?.elim (ofChars (Piece.behind c cs)).next?
        fun t => some (t, ofChars (Piece.behind c cs)) := by
  cases ht : (Piece.front c cs).token? with
  | some t => simp [next?, ofChars, nextToken?, ht]
  | none =>
    have hnext : nextToken? (c :: cs) = nextToken? (Piece.behind c cs) := by
      rw [nextToken?, ht]
    cases hb : Piece.behind c cs with
    | nil => simp [next?, ofChars, hnext, hb, nextToken?]
    | cons d ds => simp [next?, ofChars, hnext, hb]

/-- As many requests as there are tokens, with one more for the end of input, are all
answered. -/
theorem run_next (cs : List Char) (saved : Array Lexer) :
    ((Session.mk (ofChars cs) saved).run (List.replicate ((tokensOf cs).length + 1) .next)).1 =
      (tokensOf cs ++ [Token.eof]).map .token := by
  generalize hts : tokensOf cs = ts
  induction ts generalizing cs with
  | nil =>
    obtain ⟨rest, hnext, -⟩ := next?_ofChars cs
    simp [Session.run, Session.step, hnext, hts]
  | cons t ts ih =>
    obtain ⟨rest, hnext, htail⟩ := next?_ofChars cs
    rw [hts] at hnext htail
    have hstep : (Session.mk (ofChars cs) saved).step .next =
        (.token t, Session.mk (ofChars rest) saved) := by
      simp only [Session.step, hnext]
      rfl
    rw [List.length_cons, List.replicate_succ, Session.run, hstep, ih rest htail]
    rfl

end Lexer

/-! ## The pieces of a text -/

namespace Piece

/-- How many bytes the texts of some pieces have together. -/
def bytes (xs : List Piece) : Nat :=
  (String.ofList (xs.flatMap text)).utf8ByteSize

end Piece

theorem pieces_of_append {cs : List Char} {xs ys : List Piece} (h : pieces cs = xs ++ ys) :
    cs = xs.flatMap Piece.text ++ ys.flatMap Piece.text ∧ pieces (ys.flatMap Piece.text) = ys := by
  have htext := flatMap_text_pieces cs
  rw [h, List.flatMap_append] at htext
  refine ⟨htext.symm, ?_⟩
  clear htext
  induction xs generalizing cs with
  | nil =>
    have hys : pieces cs = ys := h
    rw [← hys, flatMap_text_pieces]
  | cons x xs ih =>
    cases cs with
    | nil => simp [pieces] at h
    | cons c cs =>
      rw [pieces] at h
      exact ih (List.cons.inj h).2

namespace Piece

variable {s : String} {xs ys : List Piece}

theorem isValid_bytes (h : pieces s.toList = xs ++ ys) : String.Pos.Raw.IsValid s ⟨bytes xs⟩ := by
  refine String.Pos.Raw.isValid_iff_exists_append.2
    ⟨.ofList (xs.flatMap text), .ofList (ys.flatMap text), ?_, rfl⟩
  rw [← String.ofList_append, ← (pieces_of_append h).1, String.ofList_toList]

theorem advance_bytes (h : pieces s.toList = xs ++ ys) :
    (Lexer.ofString s).advance (bytes xs) = .ofChars (ys.flatMap text) := by
  rw [Lexer.ofString, (pieces_of_append h).1]
  exact Lexer.advance_ofChars _ _

theorem exists_front {x : Piece} {cs : List Char} (h : pieces cs = x :: ys) :
    ∃ c ds, cs = c :: ds ∧ x = front c ds ∧ ys.flatMap text = behind c ds := by
  cases cs with
  | nil => simp [pieces] at h
  | cons c ds =>
    rw [pieces] at h
    obtain ⟨rfl, rfl⟩ := List.cons.inj h
    exact ⟨c, ds, rfl, rfl, flatMap_text_pieces _⟩

theorem bytes_lt (xs : List Piece) {x : Piece} (hx : x.text ≠ []) :
    bytes xs < bytes (xs ++ [x]) := by
  obtain ⟨c, cs, hc⟩ := List.exists_cons_of_ne_nil hx
  have hpos := c.utf8Size_pos
  rw [bytes, bytes, List.flatMap_append, List.flatMap_singleton, hc, String.ofList_append,
    String.ofList_cons, String.utf8ByteSize_append, String.utf8ByteSize_append,
    String.utf8ByteSize_singleton]
  omega

end Piece

/-! ## Whole texts -/

/-- **The longest match.**  A text is cut into tokens without a remainder and without a
failure: every request for a token is answered, the end of input comes last and only
there, and the text is the tokens in order, each a lexeme of its kind, with nothing but
blanks and comments before, between and behind them.

Wherever a piece begins the position lies on a character of the text.  The piece is the
longest of all the texts at the front of the rest that a pattern of the table has, and
the first pattern that matches takes it; or it is one character with which no pattern
has a text.  The lexer moves on by the bytes of the piece, which is always forward, and
gives its token if it makes one. -/
theorem tokenize_longest_match (s : String) :
    (∃ ts, tokenize s = ts ++ [.eof] ∧ (∀ t ∈ ts, t.kind ≠ .eof) ∧ Spaced ts s.toList) ∧
      ((Lexer.Session.start (.ofString s)).run (List.replicate (tokenize s).length .next)).1 =
        (tokenize s).map .token ∧
      ∀ xs ys, pieces s.toList = xs ++ ys →
        let rest := ys.flatMap Piece.text
        String.Pos.Raw.IsValid s ⟨Piece.bytes xs⟩ ∧
          (Lexer.ofString s).advance (Piece.bytes xs) = .ofChars rest ∧
          ∀ x ∈ ys.head?,
            x.CutOff rest ∧ Piece.bytes xs < Piece.bytes (xs ++ [x]) ∧
              let next := (Lexer.ofString s).advance (Piece.bytes (xs ++ [x]))
              (Lexer.ofChars rest).next? = x.token?.elim next.next? fun t => some (t, next) := by
  refine ⟨⟨tokensOf s.toList, rfl, ?_, spaced_tokensOf _⟩, ?_, ?_⟩
  · exact fun t ht => (isLexeme_of_mem_tokensOf t ht).kind_ne_eof
  · have hlength : (tokenize s).length = (tokensOf s.toList).length + 1 := List.length_append
    rw [hlength]
    exact Lexer.run_next s.toList #[]
  · intro xs ys h rest
    refine ⟨Piece.isValid_bytes h, Piece.advance_bytes h, ?_⟩
    cases ys with
    | nil => rintro x ⟨⟩
    | cons x ys =>
      rintro _ ⟨⟩
      obtain ⟨c, cs, hrest, rfl, hbehind⟩ := Piece.exists_front (pieces_of_append h).2
      have hrest : rest = c :: cs := hrest
      refine ⟨hrest ▸ Piece.cutOff_front c cs, Piece.bytes_lt xs (Piece.front_text_ne_nil c cs), ?_⟩
      have hnext := Piece.advance_bytes (h.trans (List.append_cons xs _ ys))
      rw [hnext, hbehind, hrest]
      exact Lexer.next?_ofChars_cons c cs

/-- In `é!=0b2` the fourth byte is behind the first two pieces.  The base mark is followed by
no digit of its base, so the zero stands alone and the rest is a word. -/
theorem tokenize_longest_match_bare_zero :
    let illegal : Piece := ⟨some .illegal, ['é']⟩
    let differs : Piece := ⟨some .notEquals, ['!', '=']⟩
    let zero : Piece := ⟨some .integer, ['0']⟩
    let word : Piece := ⟨some .identifier, ['b', '2']⟩
    let s := "é!=0b2"
    pieces s.toList = [illegal, differs] ++ [zero, word] ∧ zero ∈ [zero, word].head? ∧
      Piece.bytes [illegal, differs] = 4 ∧ String.Pos.Raw.IsValid s ⟨4⟩ ∧
      zero.CutOff ['0', 'b', '2'] ∧
      (Lexer.ofChars ['0', 'b', '2']).next? =
        some (⟨.integer, "0"⟩, (Lexer.ofString s).advance 5) := by
  intro illegal differs zero word s
  have h : pieces s.toList = [illegal, differs] ++ [zero, word] := by decide +kernel
  obtain ⟨hvalid, -, hfront⟩ := (tokenize_longest_match s).2.2 _ _ h
  obtain ⟨hcut, -, hnext⟩ := hfront zero rfl
  exact ⟨h, rfl, by decide +kernel, hvalid, hcut, hnext⟩

end Frontend
