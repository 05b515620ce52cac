/-
# `Frontend.Proofs.Rendering` — the tokens of a written form

A tree is well formed if its tokens are of the kinds that its nodes call for, if
every text is in the class of its kind, and if what a node keeps beside its
token agrees with it.  Those are the trees that can be written out and read
back.

The written form of an expression is a phrase in which every operator has its
own group.  So its operands are never operators by themselves, it is well bound
whatever the powers are (`Expr.wellBound_phrase`), and its levels are those of
the tree with two for every operator on the way.

The tokens of the written form are those of the phrase (`tokensOf_render`).  No
two of them run together: a name or an integer is always followed by a blank, a
parenthesis or a terminator, and an operator before its operand is followed by
neither `=` nor a slash.
-/
import Frontend.Proofs.Lexeme
import Frontend.Proofs.Newline
import Frontend.Proofs.Phrase
import Mathlib.Data.List.Basic

namespace Frontend

/-- The token of a mark or a reserved word. -/
def Token.spelled (k : Kind) : Token :=
  ⟨k, k.spelling⟩

/-! ## Well formed trees -/

/-- A name that its token spells. -/
structure Ident.WellFormed (id : Ident) : Prop where
  kind_eq : id.token.kind = .identifier
  isLexeme : id.token.IsLexeme
  value_eq : id.value = id.token.text

/-- Every node has a token that it can be written with, and is what that token
says. -/
def Expr.WellFormed : Expr → Prop
  | ident id => id.WellFormed
  | integer t v => t.kind = .integer ∧ t.IsLexeme ∧ Numeral.read? t.text = some v
  | unary t op e =>
    Grammar.standard.opening t.kind = some .unary ∧ t.IsLexeme ∧ op = t.text ∧ e.WellFormed
  | binary t op l r =>
    Grammar.standard.joining t.kind = some .binary ∧ t.IsLexeme ∧ op = t.text ∧
      l.WellFormed ∧ r.WellFormed

namespace Stmt

/-- The value that a statement binds or returns. -/
def value? : Stmt → Option Expr
  | letStmt _ _ v => v
  | returnStmt _ v => v
  | exprStmt _ _ => none

/-- The expression in a statement: its value, or what it is by itself. -/
def expr? : Stmt → Option Expr
  | exprStmt _ e => some e
  | s => s.value?

/-- The first token of an expression by itself is left open: it is not written. -/
def WellFormed (s : Stmt) : Prop :=
  (∀ e ∈ s.expr?, e.WellFormed) ∧
    match s with
    | letStmt t name _ => t = .spelled .kwLet ∧ name.WellFormed
    | returnStmt t _ => t = .spelled .kwReturn
    | exprStmt _ _ => True

end Stmt

/-- Every statement is well formed. -/
def Program.WellFormed (p : Program) : Prop :=
  ∀ s ∈ p.statements, s.WellFormed

/-! ## The phrase of a written form -/

/-- A phrase between parentheses. -/
def Phrase.enclosed (c : Phrase) : Phrase :=
  .group (.spelled .openParen) (.spelled .closeParen) c

namespace Expr

/-- The phrase that an expression is written as. -/
def phrase : Expr → Phrase
  | ident id => .ident id.token
  | integer t v => .integer t v
  | unary t _ e => .enclosed (.unary t e.phrase)
  | binary t _ l r => .enclosed (.binary t l.phrase r.phrase)

variable {e : Expr}

theorem erase_phrase (h : e.WellFormed) : e.phrase.erase = e := by
  induction e with
  | ident id =>
    obtain ⟨t, v⟩ := id
    rw [phrase, Phrase.erase, Ident.ofToken, ← h.value_eq]
  | integer t v => rfl
  | unary t op e ih =>
    obtain ⟨-, -, rfl, he⟩ := h
    exact congrArg (Expr.unary t t.text) (ih he)
  | binary t op l r ihl ihr =>
    obtain ⟨-, -, rfl, hl, hr⟩ := h
    show Expr.binary t t.text l.phrase.erase r.phrase.erase = _
    rw [ihl hl, ihr hr]

/-- A written form is never an operator between operands that stands free. -/
theorem spine_phrase (e : Expr) : e.phrase.spine = 0 := by
  cases e <;> rfl

theorem tighterThan_phrase (g : Grammar) (b : Power) (e : Expr) : e.phrase.TighterThan g b :=
  Phrase.tighterThan_of_spine e.spine_phrase

theorem closedBy_phrase (g : Grammar) (t : Token) (e : Expr) : e.phrase.ClosedBy g t :=
  Phrase.closedBy_of_spine e.spine_phrase

theorem atLeast_phrase (g : Grammar) (b : Power) (e : Expr) : e.phrase.AtLeast g b :=
  Phrase.atLeast_of_spine e.spine_phrase

theorem wellBound_phrase (h : e.WellFormed) : e.phrase.WellBound .standard := by
  induction e with
  | ident id =>
    show Grammar.standard.opening id.token.kind = _
    rw [h.kind_eq]
    rfl
  | integer t v =>
    obtain ⟨hk, -, hv⟩ := h
    refine ⟨?_, hv⟩
    rw [hk]
    rfl
  | unary t op e ih =>
    obtain ⟨ho, -, -, he⟩ := h
    exact ⟨rfl, rfl, ho, ih he, tighterThan_phrase _ _ e⟩
  | binary t op l r ihl ihr =>
    obtain ⟨hj, -, -, hl, hr⟩ := h
    exact ⟨rfl, rfl, hj, ihl hl, ihr hr, atLeast_phrase _ _ l, tighterThan_phrase _ _ r⟩

/-- An operator between operands costs its group, its left operand nothing more, and
its right operand two. -/
theorem levels_phrase_binary (t : Token) (op : String) (l r : Expr) :
    (binary t op l r).phrase.levels = 1 + max l.phrase.levels (2 + r.phrase.levels) := by
  simp only [phrase, Phrase.enclosed, Phrase.levels, Phrase.spine, spine_phrase]

theorem levels_phrase_unary (t : Token) (op : String) (e : Expr) :
    (unary t op e).phrase.levels = 2 + e.phrase.levels := by
  simp only [phrase, Phrase.enclosed, Phrase.levels]
  omega

end Expr

/-- Reading never opens more levels than there are tokens. -/
theorem Phrase.levels_le_length_yield (c : Phrase) : c.levels ≤ c.yield.length := by
  induction c with
  | ident t => exact Nat.le_refl 1
  | integer t v => exact Nat.le_refl 1
  | unary t x ih =>
    simp only [levels, yield, List.length_cons]
    omega
  | binary t l r ihl ihr =>
    have hspine := l.spine_lt_levels
    simp only [levels, spine, yield, List.length_append, List.length_cons]
    omega
  | group o c x ih =>
    simp only [levels, yield, List.length_cons, List.length_append]
    omega

/-! ## The tokens of statements and programs -/

namespace Stmt

/-- The tokens of a value that may be missing. -/
def valueTokens : Option Expr → List Token
  | some e => e.phrase.yield
  | none => []

/-- The tokens that a statement is written with. -/
def tokens : Stmt → List Token
  | letStmt t name v =>
    t :: name.token :: .spelled .assign :: (valueTokens v ++ [.spelled .semicolon])
  | returnStmt t v => t :: (valueTokens v ++ [.spelled .semicolon])
  | exprStmt _ e => e.phrase.yield

end Stmt

/-- The tokens that a program is written with. -/
def Program.tokens (p : Program) : List Token :=
  p.statements.flatMap Stmt.tokens

/-! ## Where tokens end -/

/-- What follows is no character of a word and makes no mark longer. -/
def Clear (rest : List Char) : Prop :=
  ∀ c ∈ rest.head?, isWordChar c = false ∧ c ≠ '=' ∧ c ≠ '/'

theorem clear_nil : Clear [] := by
  intro c hc
  cases hc

theorem clear_cons {c : Char} {cs : List Char}
    (h : isWordChar c = false ∧ c ≠ '=' ∧ c ≠ '/') : Clear (c :: cs) := by
  intro d hd
  cases hd
  exact h

theorem Clear.endsBefore {rest : List Char} (h : Clear rest) (k : Kind) : k.EndsBefore rest := by
  cases k <;> first
    | exact trivial
    | exact fun c hc => (h c hc).1
    | exact fun hc => (h _ hc).2.1 rfl
    | exact fun hc => (h _ hc).2.2 rfl

theorem clear_space (cs : List Char) : Clear (' ' :: cs) :=
  clear_cons (by decide)

theorem tokensOf_spelled {k : Kind} (hk : k ∈ Kind.reserved ∨ .mark k ∈ Pattern.table)
    {rest : List Char} (hr : k.EndsBefore rest) :
    tokensOf (k.spelling.toList ++ rest) = .spelled k :: tokensOf rest :=
  tokensOf_lexeme ((Token.isLexeme_iff_spelling hk _).2 rfl) hr

theorem tokensOf_openParen (rest : List Char) :
    tokensOf ('(' :: rest) = .spelled .openParen :: tokensOf rest :=
  tokensOf_spelled (k := .openParen) (by decide) trivial

theorem tokensOf_closeParen (rest : List Char) :
    tokensOf (')' :: rest) = .spelled .closeParen :: tokensOf rest :=
  tokensOf_spelled (k := .closeParen) (by decide) trivial

theorem tokensOf_semicolon (rest : List Char) :
    tokensOf (';' :: rest) = .spelled .semicolon :: tokensOf rest :=
  tokensOf_spelled (k := .semicolon) (by decide) trivial

theorem tokensOf_space (rest : List Char) : tokensOf (' ' :: rest) = tokensOf rest :=
  tokensOf_blank Text.isBlank_space rest

/-! ## The tokens of a written form -/

namespace Expr

variable {e : Expr}

theorem toList_render_unary (t : Token) (op : String) (e : Expr) (rest : List Char) :
    (unary t op e).render.toList ++ rest =
      '(' :: (op.toList ++ (e.render.toList ++ ')' :: rest)) := by
  simp [render]

theorem toList_render_binary (t : Token) (op : String) (l r : Expr) (rest : List Char) :
    (binary t op l r).render.toList ++ rest =
      '(' :: (l.render.toList ++
        ' ' :: (op.toList ++ ' ' :: (r.render.toList ++ ')' :: rest))) := by
  simp [render]

/-- A written form begins with a character of a word or with a parenthesis, so it
makes no other mark of an operator before it. -/
theorem equals_notMem_head?_render (h : e.WellFormed) (rest : List Char) :
    '=' ∉ (e.render.toList ++ rest).head? := by
  have hword {w : List Char} (hw : ∃ c cs, w = c :: cs ∧ isWordChar c = true) :
      '=' ∉ (w ++ rest).head? := by
    obtain ⟨c, cs, rfl, hc⟩ := hw
    intro heq
    cases heq
    exact absurd hc (by decide)
  cases e with
  | ident id =>
    rw [render, h.value_eq]
    exact hword ((Token.isLexeme_of_identifier h.kind_eq).1 h.isLexeme).1.isWordChar_head
  | integer t v => exact hword ((Token.isLexeme_of_integer h.1).1 h.2.1).isWordChar_head
  | unary t op e =>
    rw [toList_render_unary]
    simp
  | binary t op l r =>
    rw [toList_render_binary]
    simp

theorem endsBefore_unary {k : Kind} (hk : Grammar.standard.opening k = some .unary)
    {rest : List Char} (hr : '=' ∉ rest.head?) : k.EndsBefore rest := by
  cases k <;> first
    | exact hr
    | exact trivial
    | cases hk

theorem tokensOf_render (h : e.WellFormed) {rest : List Char} (hr : Clear rest) :
    tokensOf (e.render.toList ++ rest) = e.phrase.yield ++ tokensOf rest := by
  induction e generalizing rest with
  | ident id =>
    rw [render, h.value_eq]
    exact tokensOf_lexeme h.isLexeme (hr.endsBefore _)
  | integer t v => exact tokensOf_lexeme h.2.1 (hr.endsBefore _)
  | unary t op e ih =>
    obtain ⟨ho, ht, rfl, he⟩ := h
    rw [toList_render_unary, tokensOf_openParen,
      tokensOf_lexeme ht (endsBefore_unary ho (equals_notMem_head?_render he _)),
      ih he (clear_cons (by decide)), tokensOf_closeParen]
    simp [phrase, Phrase.enclosed, Phrase.yield]
  | binary t op l r ihl ihr =>
    obtain ⟨-, ht, rfl, hl, hr'⟩ := h
    rw [toList_render_binary, tokensOf_openParen, ihl hl (clear_space _), tokensOf_space,
      tokensOf_lexeme ht ((clear_space _).endsBefore _), tokensOf_space,
      ihr hr' (clear_cons (by decide)), tokensOf_closeParen]
    simp [phrase, Phrase.enclosed, Phrase.yield]

end Expr

/-! ## The tokens of a written program -/

namespace Stmt

theorem tokensOf_renderValue {v : Option Expr} (h : ∀ e ∈ v, e.WellFormed) (rest : List Char) :
    tokensOf ((renderValue v).toList ++ ';' :: rest) =
      valueTokens v ++ .spelled .semicolon :: tokensOf rest := by
  cases v with
  | none => exact tokensOf_semicolon rest
  | some e =>
    rw [renderValue, valueTokens, Expr.tokensOf_render (h e rfl) (clear_cons (by decide)),
      tokensOf_semicolon]

theorem tokensOf_render {s : Stmt} (h : s.WellFormed) {rest : List Char} (hr : Clear rest) :
    tokensOf (s.render.toList ++ rest) = s.tokens ++ tokensOf rest := by
  cases s with
  | letStmt t name v =>
    obtain ⟨hv, rfl, hname⟩ := h
    have htext : (letStmt (.spelled .kwLet) name v).render.toList ++ rest =
        Kind.kwLet.spelling.toList ++ ' ' :: (name.token.text.toList ++
          ' ' :: '=' :: ' ' :: ((renderValue v).toList ++ ';' :: rest)) := by
      simp [render, Token.spelled, hname.value_eq]
    have hassign (cs : List Char) : tokensOf ('=' :: ' ' :: cs) =
        .spelled .assign :: tokensOf (' ' :: cs) :=
      tokensOf_spelled (k := .assign) (by decide) ((clear_space cs).endsBefore _)
    rw [htext, tokensOf_spelled (by decide) ((clear_space _).endsBefore _), tokensOf_space,
      tokensOf_lexeme hname.isLexeme ((clear_space _).endsBefore _), tokensOf_space, hassign,
      tokensOf_space, tokensOf_renderValue (v := v) hv]
    simp [tokens]
  | returnStmt t v =>
    obtain ⟨hv, rfl⟩ := h
    have htext : (returnStmt (.spelled .kwReturn) v).render.toList ++ rest =
        Kind.kwReturn.spelling.toList ++ ' ' :: ((renderValue v).toList ++ ';' :: rest) := by
      simp [render, Token.spelled]
    rw [htext, tokensOf_spelled (by decide) ((clear_space _).endsBefore _), tokensOf_space,
      tokensOf_renderValue (v := v) hv]
    simp [tokens]
  | exprStmt t e => exact Expr.tokensOf_render (h.1 e rfl) hr

end Stmt

/-- **Reading a written form.**  The lexer finds in a written program the tokens it was
written with, and no others. -/
theorem Program.tokensOf_render {p : Program} (h : p.WellFormed) :
    tokensOf p.render.toList = p.tokens := by
  have hstatement : ∀ s ∈ p.statements, tokensOf s.render.toList = s.tokens := by
    intro s hs
    have hs := Stmt.tokensOf_render (h s hs) clear_nil
    rwa [List.append_nil, tokensOf_nil, List.append_nil] at hs
  rw [render, tokensOf_joinLines, List.flatMap_map, tokens]
  exact List.flatMap_congr hstatement

end Frontend
