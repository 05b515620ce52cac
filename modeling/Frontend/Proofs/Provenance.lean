/-
# `Frontend.Proofs.Provenance` — where a program comes from

Whatever is complained of, the statements that a parse gives are read from the
text, in order and without using a token twice.  `Stmt.SpelledBy` says which
tokens a statement is read from, and `DrawnFrom` that statements are read from
stretches of a list that follow one another.  Between two stretches tokens may
be lost: those of a statement that was dropped, of a value that could not be
read or was passed over, and the terminators.

The invariant is on one statement.  `Covers p us q` says that the tokens `us`
come next at `p`, and that the parser has passed all of them when it goes on
behind `q`.  How much further it has gone, and over what, plays no part.

A tree keeps a token for each of its nodes.  Read in order they are the tokens
of the phrase without the parentheses, so the nodes of a whole program are some
of the tokens of the text, in order.
-/
import Frontend.Proofs.Sentence

namespace Frontend

/-! ## The tokens of the nodes -/

namespace Expr

/-- The nodes of an expression, in the order in which their tokens were read. -/
def nodes : Expr → List Expr
  | ident id => [ident id]
  | integer t v => [integer t v]
  | unary t op e => unary t op e :: e.nodes
  | binary t op l r => l.nodes ++ binary t op l r :: r.nodes

/-- The tokens that an expression keeps. -/
def nodeTokens (e : Expr) : List Token :=
  e.nodes.map token

theorem nodeTokens_binary (t : Token) (op : String) (l r : Expr) :
    (binary t op l r).nodeTokens = l.nodeTokens ++ t :: r.nodeTokens := by
  rw [nodeTokens, nodes, List.map_append]
  rfl

end Expr

/-- The tokens that a statement keeps.  That of an expression by itself belongs to a
node of the expression or to a parenthesis, and is not counted for the statement. -/
def Stmt.nodeTokens : Stmt → List Token
  | letStmt t name v => t :: name.token :: v.elim [] Expr.nodeTokens
  | returnStmt t v => t :: v.elim [] Expr.nodeTokens
  | exprStmt _ e => e.nodeTokens

/-- The tokens that a program keeps. -/
def Program.nodeTokens (p : Program) : List Token :=
  p.statements.flatMap Stmt.nodeTokens

/-- Parentheses and terminators, which only set expressions and statements apart. -/
def Kind.isDelimiter : Kind → Bool
  | openParen | closeParen | semicolon => true
  | _ => false

/-- The tokens of a list that set nothing apart. -/
def significant (ts : List Token) : List Token :=
  ts.filter fun t => !t.kind.isDelimiter

theorem significant_append (ts us : List Token) :
    significant (ts ++ us) = significant ts ++ significant us :=
  List.filter_append ts us

theorem significant_cons {t : Token} (h : t.kind.isDelimiter = false) (ts : List Token) :
    significant (t :: ts) = t :: significant ts :=
  List.filter_cons_of_pos (by rw [h]; rfl)

theorem significant_delimiter {t : Token} (h : t.kind.isDelimiter = true) (ts : List Token) :
    significant (t :: ts) = significant ts :=
  List.filter_cons_of_neg (by rw [h]; decide)

theorem Grammar.isDelimiter_of_opening {k : Kind} {o : Opening}
    (h : standard.opening k = some o) : k.isDelimiter = true ↔ o = .group := by
  revert h
  cases k <;> cases o <;> decide

theorem Grammar.isDelimiter_of_joining {k : Kind} {j : Joining}
    (h : standard.joining k = some j) : k.isDelimiter = false := by
  revert h
  cases k <;> cases j <;> decide

/-- An expression keeps every token of its phrase but the parentheses. -/
theorem Phrase.significant_yield {c : Phrase} (h : c.WellBound .standard) :
    significant c.yield = c.erase.nodeTokens := by
  have hkept {k : Kind} {o : Opening} (ho : Grammar.standard.opening k = some o)
      (hne : o ≠ .group) : k.isDelimiter = false :=
    Bool.eq_false_iff.2 fun hk => hne ((Grammar.isDelimiter_of_opening ho).1 hk)
  induction c with
  | ident t => exact significant_cons (hkept h (by decide)) []
  | integer t v => exact significant_cons (hkept h.1 (by decide)) []
  | unary t x ih =>
    obtain ⟨ho, hx, -⟩ := h
    rw [yield, significant_cons (hkept ho (by decide)), ih hx]
    rfl
  | binary t l r ihl ihr =>
    obtain ⟨hj, hl, hr, -⟩ := h
    rw [yield, significant_append, significant_cons (Grammar.isDelimiter_of_joining hj), ihl hl,
      ihr hr, erase, Expr.nodeTokens_binary]
  | group o u x ih =>
    obtain ⟨ho, hu, hx⟩ := h
    rw [yield, significant_delimiter ((Grammar.isDelimiter_of_opening ho).2 rfl),
      significant_append, significant_delimiter (by rw [hu]; rfl), ih hx]
    exact List.append_nil _

/-! ## The tokens that a statement is read from -/

/-- The tokens that a value is read from: none if there is no value. -/
inductive ValueSpelledBy : Option Expr → List Token → Prop where
  | none : ValueSpelledBy none []
  | some {c : Phrase} (hc : c.WellBound .standard) : ValueSpelledBy (some c.erase) c.yield

/-- The tokens that a statement is read from.  The first of them is the token that the
statement keeps. -/
inductive Stmt.SpelledBy : Stmt → List Token → Prop where
  | letStmt {word name mark : Token} {v : Option Expr} {us : List Token}
      (hword : word.kind = .kwLet) (hname : name.kind = .identifier) (hmark : mark.kind = .assign)
      (hv : ValueSpelledBy v us) :
      SpelledBy (.letStmt word (.ofToken name) v) (word :: name :: mark :: us)
  | returnStmt {word : Token} {v : Option Expr} {us : List Token} (hword : word.kind = .kwReturn)
      (hv : ValueSpelledBy v us) : SpelledBy (.returnStmt word v) (word :: us)
  | exprStmt {t : Token} {us : List Token} {c : Phrase} (hc : c.WellBound .standard)
      (hfirst : c.yield = t :: us) : SpelledBy (.exprStmt t c.erase) c.yield

/-- Statements are read from stretches of a list, one behind the other. -/
inductive DrawnFrom : List Token → List Stmt → Prop where
  | nil {ts : List Token} : DrawnFrom ts []
  | cons {s : Stmt} {ss : List Stmt} {lost us rest : List Token} (hs : s.SpelledBy us)
      (h : DrawnFrom rest ss) : DrawnFrom (lost ++ (us ++ rest)) (s :: ss)

theorem DrawnFrom.append_left {ts : List Token} {ss : List Stmt} (h : DrawnFrom ts ss)
    (us : List Token) : DrawnFrom (us ++ ts) ss := by
  cases h with
  | nil => exact .nil
  | cons hs h =>
    rw [← List.append_assoc]
    exact .cons hs h

theorem DrawnFrom.of_drop {ts : List Token} {ss : List Stmt} {n : Nat}
    (h : DrawnFrom (ts.drop n) ss) : DrawnFrom ts ss :=
  List.take_append_drop n ts ▸ h.append_left (ts.take n)

theorem Stmt.SpelledBy.sublist {s : Stmt} {us : List Token} (h : s.SpelledBy us) :
    s.nodeTokens.Sublist us := by
  have hphrase {c : Phrase} (hc : c.WellBound .standard) : c.erase.nodeTokens.Sublist c.yield :=
    Phrase.significant_yield hc ▸ List.filter_sublist
  have hvalue {v : Option Expr} {us : List Token} (hv : ValueSpelledBy v us) :
      (v.elim [] Expr.nodeTokens).Sublist us := by
    cases hv with
    | none => exact List.Sublist.refl []
    | some hc => exact hphrase hc
  cases h with
  | letStmt _ _ _ hv => exact (((hvalue hv).cons _).cons_cons _).cons_cons _
  | returnStmt _ hv => exact (hvalue hv).cons_cons _
  | exprStmt hc _ => exact hphrase hc

/-- Statements that are read from a list one behind the other keep some of its tokens,
in order. -/
theorem DrawnFrom.sublist {ts : List Token} {ss : List Stmt} (h : DrawnFrom ts ss) :
    (ss.flatMap Stmt.nodeTokens).Sublist ts := by
  induction h with
  | nil => exact List.nil_sublist _
  | cons hs _ ih => exact (hs.sublist.append ih).trans (List.sublist_append_right _ _)

namespace Parser

variable {σ : Type}

/-! ## One statement -/

section Statements

variable [Source σ]

/-- Some tokens come next at a state, and all of them are passed when the parser goes on
behind another. -/
structure Covers (p : Parser σ) (us : List Token) (q : Parser σ) : Prop where
  begins : p.Begins us
  kind_ne : ∀ u ∈ us, u.kind ≠ .eof
  passed : ∃ n, us.length ≤ n ∧ Reaches p n q.advance

namespace Covers

variable {p q : Parser σ} {us : List Token}

theorem nil (h : Leads p q) : Covers p [] q := by
  obtain ⟨n, hn⟩ := h
  exact ⟨rfl, by rintro u ⟨⟩, n + 1, Nat.zero_le _, hn.advance⟩

theorem cons (h : Covers p.advance us q) (hne : p.current.kind ≠ .eof) :
    Covers p (p.current :: us) q := by
  obtain ⟨n, hle, hn⟩ := h.passed
  refine ⟨begins_cons.2 ⟨rfl, h.begins⟩, List.forall_mem_cons.2 ⟨hne, h.kind_ne⟩, 1 + n, ?_, ?_⟩
  · rw [List.length_cons]
    omega
  · exact (Reaches.refl.advance).trans hn

/-- The word, the name and the mark of a `let` stand before what its value is read from. -/
theorem let_front (h : Covers (p.move 3) us q) (hword : p.current.kind = .kwLet)
    (hname : p.peek.kind = .identifier) (hmark : p.advance.peek.kind = .assign) :
    Covers p (p.current :: p.peek :: p.advance.peek :: us) q := by
  have hmark' : Covers p.advance.advance (p.advance.peek :: us) q :=
    Covers.cons (p := p.advance.advance) h fun he => by cases hmark.symm.trans he
  have hname' : Covers p.advance (p.peek :: p.advance.peek :: us) q :=
    Covers.cons (p := p.advance) hmark' fun he => by cases hname.symm.trans he
  exact hname'.cons (by rw [hword]; decide)

/-- The tokens that are passed are those in front of the rest. -/
theorem exists_rest {ts : List Token} (h : Covers p us q) (hp : p.Holds ts) :
    ∃ rest k, ts = us ++ rest ∧ q.advance.Holds (rest.drop k) := by
  obtain ⟨rest, rfl⟩ := hp.eq_append h.begins h.kind_ne
  obtain ⟨n, hle, hn⟩ := h.passed
  refine ⟨rest, n - us.length, rfl, ?_⟩
  have hq := hn.holds_drop hp
  rwa [List.drop_append, List.drop_eq_nil_of_le hle, List.nil_append] at hq

end Covers

variable {p q : Parser σ}

/-- A value is read from the tokens that come next, or there is none. -/
theorem covers_value (hg : p.grammar = .standard) :
    ∃ us, ValueSpelledBy p.value.1 us ∧ Covers p us p.value.2 := by
  rcases outcome_value p (hg ▸ Grammar.joins_standard) with ⟨c, hc, -, hv⟩ | ⟨q, hv, -⟩
  · have hwell : c.WellBound .standard := hg ▸ hc.wellBound
    rw [hv]
    obtain ⟨m, hm⟩ := leads_takeTerminator (p.move c.width)
    refine ⟨c.yield, .some hwell, hc.begins, fun t ht => (hwell.kind_ne t ht).2, ?_⟩
    refine ⟨c.width + m + 1, ?_, ((reaches_move p c.width).trans hm).advance⟩
    rw [c.length_yield]
    omega
  · have hq : Leads p p.value.2 := (leads_expression .lowest p).trans (leads_takeTerminator _)
    rw [hv] at hq ⊢
    exact ⟨[], .none, .nil hq⟩

/-- A statement is read from the tokens that come next. -/
theorem Dispatch.spelledBy {s : Stmt} (hg : p.grammar = .standard) (h : Dispatch p (some s) q) :
    ∃ us, s.SpelledBy us ∧ Covers p us q := by
  have hlet (hf : p.grammar.form p.current.kind = some .letForm) : p.current.kind = .kwLet :=
    Grammar.form_standard_eq_some.1 (hg ▸ hf)
  have hreturn (hf : p.grammar.form p.current.kind = some .returnForm) :
      p.current.kind = .kwReturn :=
    Grammar.form_standard_eq_some.2 (hg ▸ hf)
  generalize hs : some s = s' at h
  cases h with
  | letNoName => cases hs
  | letNoMark => cases hs
  | letValue hf hname hmark _ =>
    cases hs
    have hg' : (p.move 3).grammar = .standard := hg
    obtain ⟨us, hv, hus⟩ := covers_value hg'
    exact ⟨_, .letStmt (hlet hf) hname hmark hv, hus.let_front (hlet hf) hname hmark⟩
  | letSkip hf hname hmark _ hq =>
    cases hs
    obtain ⟨k, rfl⟩ := (hq.behind_mark hmark).exists_move
    have hus : Covers (p.move 3) [] ((p.move 3).move k) := .nil (leads_move _ k)
    exact ⟨_, .letStmt (hlet hf) hname hmark .none, hus.let_front (hlet hf) hname hmark⟩
  | returnValue hf _ _ =>
    cases hs
    have hg' : p.advance.grammar = .standard := hg
    obtain ⟨us, hv, hus⟩ := covers_value hg'
    exact ⟨_, .returnStmt (hreturn hf) hv, hus.cons (by rw [hreturn hf]; decide)⟩
  | returnSkip hf _ hq =>
    cases hs
    obtain ⟨k, rfl⟩ := hq.exists_move
    have hus : Covers p.advance [] (p.advance.move k) := .nil (leads_move _ k)
    exact ⟨_, .returnStmt (hreturn hf) .none, hus.cons (by rw [hreturn hf]; decide)⟩
  | expr _ _ =>
    obtain ⟨e, he, rfl⟩ := Option.map_eq_some_iff.1 hs.symm
    obtain ⟨us, hv, hus⟩ := covers_value hg
    rw [he] at hv
    cases hv with
    | @some c hc =>
      obtain ⟨t, us, ht⟩ := List.exists_cons_of_ne_nil c.yield_ne_nil
      have hfirst : p.current = t := (begins_cons.1 (ht ▸ hus.begins)).1
      exact ⟨_, .exprStmt hc (hfirst ▸ ht), hus⟩

end Statements

/-! ## Whole programs -/

theorem drawnFrom_statements [FiniteSource σ] (p : Parser σ) (hg : p.grammar = .standard) :
    ∀ ts, p.Holds ts → DrawnFrom ts p.statements.1 := by
  fun_induction statements p with
  | case1 => exact fun _ _ => .nil
  | case2 p hne s rest ih =>
    intro ts hts
    have hs : Leads p s.2.advance := (leads_statement p).trans (.advance _)
    have hd : Dispatch p s.1 s.2 := dispatch_statement p
    have hrest := ih (hs.grammar_eq.trans hg)
    show DrawnFrom ts (s.1.toList ++ rest.1)
    cases hread : s.1 with
    | none =>
      obtain ⟨n, hn⟩ := hs.exists_holds_drop
      exact (hrest _ (hn ts hts)).of_drop
    | some t =>
      rw [hread] at hd
      obtain ⟨us, hus, hcovers⟩ := hd.spelledBy hg
      obtain ⟨vs, k, rfl, hq⟩ := hcovers.exists_rest hts
      have hall : DrawnFrom ([] ++ (us ++ vs)) (t :: rest.1) := .cons hus (hrest _ hq).of_drop
      exact hall

end Parser

/-! ## What the nodes say -/

/-- The operators that stand between their operands. -/
def Kind.operators : List Kind :=
  [equals, notEquals, less, greater, plus, minus, asterisk, slash]

theorem Grammar.unary_standard {k : Kind} (h : standard.opening k = some .unary) :
    k = .bang ∨ k = .minus := by
  revert h
  cases k <;> decide

theorem Grammar.binary_standard {k : Kind} (h : standard.joining k = some .binary) :
    k ∈ Kind.operators := by
  revert h
  cases k <;> decide

theorem Kind.mark_mem_of_operators : ∀ k ∈ operators, .mark k ∈ Pattern.table := by
  decide

/-- A name that its token spells, and that is no reserved word. -/
structure Ident.Grounded (id : Ident) : Prop where
  kind_eq : id.token.kind = .identifier
  isWord : IsWord id.token.text.toList
  ne_spelling : ∀ k ∈ Kind.reserved, id.token.text ≠ k.spelling
  value_eq : id.value = id.token.text

/-- The root of an expression is what its token says. -/
def Expr.Grounded : Expr → Prop
  | ident id => id.Grounded
  | integer t v =>
    t.kind = .integer ∧ IsInteger t.text.toList ∧ Numeral.read? t.text = some v ∧ 0 ≤ v ∧
      v < Numeral.bound
  | unary t op _ => (t = .spelled .bang ∨ t = .spelled .minus) ∧ op = t.text
  | binary t op _ _ => (∃ k ∈ Kind.operators, t = .spelled k) ∧ op = t.text

/-- A statement is what its tokens say, and so is every node in it. -/
def Stmt.Grounded (s : Stmt) : Prop :=
  (∀ e ∈ s.expr?, ∀ n ∈ e.nodes, n.Grounded) ∧
    match s with
    | letStmt t name _ => t = .spelled .kwLet ∧ name.Grounded
    | returnStmt t _ => t = .spelled .kwReturn
    | exprStmt _ _ => True

theorem Ident.WellFormed.grounded {id : Ident} (h : id.WellFormed) : id.Grounded := by
  obtain ⟨hword, hkind⟩ := (Token.isLexeme_of_identifier h.kind_eq).1 h.isLexeme
  refine ⟨h.kind_eq, hword, fun k hk htext => ?_, h.value_eq⟩
  rw [htext] at hkind
  revert hk hkind
  cases k <;> decide

/-- The text of an integer token has no sign. -/
theorem IsInteger.value_nonneg {cs : List Char} (h : IsInteger cs) :
    0 ≤ (Numeral.ofChars cs).value := by
  obtain ⟨c, cs, rfl, hc⟩ := h.isWordChar_head
  have hsign : (Numeral.ofChars (c :: cs)).negative = false := by
    simp only [Numeral.ofChars, Numeral.splitSign]
    split
    · next heq =>
      obtain ⟨rfl, -⟩ := List.cons.inj heq
      exact absurd hc (by decide)
    · rfl
    · rfl
  rw [Numeral.value, hsign]
  exact Int.natCast_nonneg _

theorem Expr.WellFormed.grounded {e : Expr} (h : e.WellFormed) : ∀ n ∈ e.nodes, n.Grounded := by
  induction e with
  | ident id => exact List.forall_mem_singleton.2 (Ident.WellFormed.grounded h)
  | integer t v =>
    obtain ⟨hk, ht, hv⟩ := h
    have hinteger := (Token.isLexeme_of_integer hk).1 ht
    obtain ⟨-, hvalue, -, hbound⟩ := Numeral.read?_eq_some_iff.1 hv
    exact List.forall_mem_singleton.2
      ⟨hk, hinteger, hv, hvalue ▸ hinteger.value_nonneg, hbound⟩
  | unary t op e ih =>
    obtain ⟨ho, ht, hop, he⟩ := h
    refine List.forall_mem_cons.2 ⟨⟨?_, hop⟩, ih he⟩
    have hlexed : t.Lexed := fun _ => ht
    exact (Grammar.unary_standard ho).imp (hlexed.eq_spelled · (.inr (by decide)))
      (hlexed.eq_spelled · (.inr (by decide)))
  | binary t op l r ihl ihr =>
    obtain ⟨hj, ht, hop, hl, hr⟩ := h
    refine List.forall_mem_append.2 ⟨ihl hl, List.forall_mem_cons.2 ⟨⟨?_, hop⟩, ihr hr⟩⟩
    have hlexed : t.Lexed := fun _ => ht
    have hk := Grammar.binary_standard hj
    exact ⟨t.kind, hk, hlexed.eq_spelled rfl (.inr (Kind.mark_mem_of_operators _ hk))⟩

theorem Stmt.WellFormed.grounded {s : Stmt} (h : s.WellFormed) : s.Grounded := by
  refine ⟨fun e he => (h.1 e he).grounded, ?_⟩
  cases s with
  | letStmt t name v => exact ⟨h.2.1, h.2.2.grounded⟩
  | returnStmt t v => exact h.2
  | exprStmt t e => trivial

/-- **Everything comes from the text.**  Whatever is complained of, every statement that is
read from a text is what its tokens say, and so is every node in it.  The statements
are read from stretches of the text's tokens, one behind the other, and each begins
with the token that it keeps.  The tokens that they keep, read from left to right, are
some of those of the text, in order and each used once. -/
theorem parseText_drawnFrom (source : String) (config : Config) :
    let P := (parseText source config).program
    (∀ s ∈ P.statements, s.Grounded) ∧ DrawnFrom (tokenize source) P.statements ∧
      P.nodeTokens.Sublist (tokenize source) := by
  intro P
  have hP : P.WellFormed := (parseText_wellFormed source config).1
  have hdrawn : DrawnFrom (tokenize source) P.statements :=
    Parser.drawnFrom_statements _ rfl _ (Parser.ready_ofString source config).holds
  exact ⟨fun s hs => (hP s hs).grounded, hdrawn, hdrawn.sublist⟩

/-- The value `(1` has no end and is lost, but not the `let`.  The `let` without a name is
dropped, and what stands in the place of the name is read by itself. -/
example :
    (parseText "let x = (1; let 5 - y; 2)" ⟨true, 8⟩).program.nodeTokens =
      [⟨.kwLet, "let"⟩, ⟨.identifier, "x"⟩, ⟨.integer, "5"⟩, ⟨.minus, "-"⟩, ⟨.identifier, "y"⟩,
        ⟨.integer, "2"⟩] := by
  decide +kernel

end Frontend
