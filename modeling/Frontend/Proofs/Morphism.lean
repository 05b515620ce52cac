/-
# `Frontend.Proofs.Morphism` — a source counts only by what it gives

A parser asks its source for the next token and for nothing else, and of a token
it looks at the kind.  The text is only kept, in the trees, and there are two
places where it is more: an integer is read from its text, and a complaint about
an integer quotes it.

So a map between sources that gives the same tokens with other texts carries a
run over the one to the run over the other: every parsing function commutes with
it, and the trees have the other texts (`parse_map`).  The texts from which
integers are read must stay as they are (`Keeps`).  On a list of tokens all others
may be exchanged, each by its kind (`parse_retext`).

Where no text is changed this says that a source may be exchanged.  Two sources
that give the same are both images of a third, which is the two of them pulled
together, and therefore are parsed alike (`parse_of_get_eq`).
-/
import Frontend.Proofs.Dispatch

namespace Frontend

/-! ## Other texts -/

section Texts

variable (f : Kind → String → String)

/-- The token with another text. -/
def Token.retext (t : Token) : Token :=
  ⟨t.kind, f t.kind t.text⟩

/-- The name with another text. -/
def Ident.retext (i : Ident) : Ident :=
  ⟨i.token.retext f, f i.token.kind i.value⟩

/-- The expression with other texts, in its tokens, its names and its operators. -/
def Expr.retext : Expr → Expr
  | ident i => .ident (i.retext f)
  | integer t v => .integer (t.retext f) v
  | unary t op e => .unary (t.retext f) (f t.kind op) e.retext
  | binary t op l r => .binary (t.retext f) (f t.kind op) l.retext r.retext

/-- The statement with other texts. -/
def Stmt.retext : Stmt → Stmt
  | letStmt t name v => .letStmt (t.retext f) (name.retext f) (v.map (Expr.retext f))
  | returnStmt t v => .returnStmt (t.retext f) (v.map (Expr.retext f))
  | exprStmt t e => .exprStmt (t.retext f) (e.retext f)

/-- The program with other texts. -/
def Program.retext (p : Program) : Program :=
  ⟨p.statements.map (Stmt.retext f)⟩

end Texts

theorem Expr.retext_self (e : Expr) : e.retext (fun _ s => s) = e := by
  induction e with
  | ident i => rfl
  | integer t v => rfl
  | unary t op e ih => rw [retext, ih, Token.retext]
  | binary t op l r ihl ihr => rw [retext, ihl, ihr, Token.retext]

theorem Stmt.retext_self (s : Stmt) : s.retext (fun _ s => s) = s := by
  have hvalue (v : Option Expr) : v.map (Expr.retext fun _ s => s) = v := by
    cases v with
    | none => rfl
    | some e => rw [Option.map_some, e.retext_self]
  cases s with
  | letStmt t name v => rw [retext, hvalue, Token.retext, Ident.retext, Token.retext]
  | returnStmt t v => rw [retext, hvalue, Token.retext]
  | exprStmt t e => rw [retext, e.retext_self, Token.retext]

theorem Program.retext_self (p : Program) : p.retext (fun _ s => s) = p := by
  rw [retext, List.map_congr_left fun s _ => s.retext_self, List.map_id']

/-- The texts from which the table reads integers stay as they are. -/
def Grammar.Keeps (g : Grammar) (f : Kind → String → String) : Prop :=
  ∀ k, g.opening k = some .integer → ∀ s, f k s = s

/-- A map between sources that gives the same tokens with other texts. -/
structure Source.Morphism {σ τ : Type} [Source σ] [Source τ] (f : Kind → String → String)
    (φ : σ → τ) : Prop where
  next_map : ∀ s, Source.next (φ s) = ((Source.next s).1.retext f, φ (Source.next s).2)

namespace Parser

variable {σ τ : Type} {f : Kind → String → String} {φ : σ → τ}

/-- The state over the other source, with the other texts in its window. -/
def map (f : Kind → String → String) (φ : σ → τ) (p : Parser σ) : Parser τ where
  source := φ p.source
  current := p.current.retext f
  peek := p.peek.retext f
  config := p.config
  depth := p.depth
  grammar := p.grammar
  diagnostics := p.diagnostics

/-- An expression and a state, both with the other texts. -/
def carry (f : Kind → String → String) (φ : σ → τ) (r : Option Expr × Parser σ) :
    Option Expr × Parser τ :=
  (r.1.map (Expr.retext f), r.2.map f φ)

section Moves

variable [Source σ] [Source τ] (hφ : Source.Morphism f φ) (p : Parser σ)
include hφ

theorem ofSource_map (s : σ) (config : Config) :
    ofSource (φ s) config = (ofSource s config).map f φ := by
  simp only [ofSource, map, hφ.next_map]

theorem advance_map : (p.map f φ).advance = p.advance.map f φ := by
  simp only [advance, map, hφ.next_map]

theorem move_map (n : Nat) : (p.map f φ).move n = (p.move n).map f φ := by
  induction n generalizing p with
  | zero => rfl
  | succ n ih => rw [move_succ, move_succ, advance_map hφ, ih]

theorem expect_map (k : Kind) :
    (p.map f φ).expect k = ((p.expect k).1, (p.expect k).2.map f φ) := by
  by_cases hk : p.peek.kind = k
  · rw [expect_of_eq hk, expect_of_eq (p := p.map f φ) hk, advance_map hφ]
  · rw [expect_of_ne hk, expect_of_ne (p := p.map f φ) hk]
    rfl

theorem takeTerminator_map : (p.map f φ).takeTerminator = p.takeTerminator.map f φ := by
  have hpeek : (p.map f φ).peek.kind = p.peek.kind := rfl
  rw [takeTerminator, takeTerminator, hpeek]
  split
  · exact advance_map hφ p
  · rfl

/-! ## Expressions -/

section Steps

variable {operand : Operand σ} {operand' : Operand τ}
  (ho : ∀ b q, q.grammar.Keeps f → operand' b (q.map f φ) = carry f φ (operand b q))
include ho

theorem opening_map (o : Opening) (hk : p.grammar.Keeps f)
    (hopens : p.grammar.opening p.current.kind = some o) :
    o.run operand' (p.map f φ) = carry f φ (o.run operand p) := by
  have hadvance := advance_map hφ p
  cases o with
  | ident => rfl
  | integer =>
    have htext : (p.map f φ).current.text = p.current.text := hk _ hopens _
    simp only [Opening.run, htext]
    cases Numeral.read? p.current.text <;> rfl
  | unary =>
    have hx := ho .unary p.advance hk
    simp only [Opening.run, hadvance, hx]
    generalize operand .unary p.advance = r
    obtain ⟨x, q⟩ := r
    cases x <;> rfl
  | group =>
    have hx := ho .lowest p.advance hk
    simp only [Opening.run, hadvance, hx]
    generalize operand .lowest p.advance = r
    obtain ⟨x, q⟩ := r
    cases x with
    | none => rfl
    | some e =>
      simp only [carry, Option.map_some, expect_map hφ]
      cases hc : q.expect .closeParen with
      | mk b r => cases b <;> rfl

theorem joining_map (left : Expr) (b : Power) (j : Joining) (hk : p.grammar.Keeps f) :
    j.run operand' (left.retext f) b (p.map f φ) = carry f φ (j.run operand left b p) := by
  have hadvance := advance_map hφ p
  cases j with
  | binary =>
    have hx := ho b p.advance hk
    simp only [Joining.run, hadvance, hx]
    generalize operand b p.advance = r
    obtain ⟨x, q⟩ := r
    cases x <;> rfl

end Steps

mutual

theorem expressionWithin_map (n : Nat) (b : Power) (p : Parser σ) (hk : p.grammar.Keeps f) :
    expressionWithin n b (p.map f φ) = carry f φ (expressionWithin n b p) := by
  have hgrammar : (p.map f φ).grammar.opening (p.map f φ).current.kind =
      p.grammar.opening p.current.kind := rfl
  match n with
  | 0 =>
    rw [expressionWithin, expressionWithin]
    rfl
  | n + 1 =>
    rw [expressionWithin, expressionWithin, hgrammar]
    cases ho : p.grammar.opening p.current.kind with
    | none => rfl
    | some o =>
      have hopening := opening_map hφ p (expressionWithin_map n) o hk ho
      have hleads := leads_opening (leads_expressionWithin n) o p
      dsimp only
      rw [hopening]
      generalize o.run (expressionWithin n) p = r at hleads
      obtain ⟨x, q⟩ := r
      cases x with
      | none => rfl
      | some left =>
        -- The opening has left the table as it was, so the integers still keep their texts.
        exact joinWithin_map n b left q (hleads.grammar_eq ▸ hk)

theorem joinWithin_map (n : Nat) (b : Power) (left : Expr) (p : Parser σ)
    (hk : p.grammar.Keeps f) :
    joinWithin n b (left.retext f) (p.map f φ) = carry f φ (joinWithin n b left p) := by
  by_cases hstops : p.grammar.Stops b p.peek
  · rw [joinWithin_of_stops n hstops, joinWithin_of_stops (p := p.map f φ) n hstops]
    rfl
  · cases hj : p.grammar.joining p.peek.kind with
    | none =>
      rw [joinWithin_of_joining n hj, joinWithin_of_joining (p := p.map f φ) n hj]
      rfl
    | some j =>
      match n with
      | 0 =>
        rw [joinWithin_zero hstops hj, joinWithin_zero (p := p.map f φ) hstops hj]
        rfl
      | n + 1 =>
        have hjoining := joining_map hφ p.advance (expressionWithin_map n) left p.peekPower j hk
        have hpower : (p.map f φ).peekPower = p.peekPower := rfl
        have hleads := (Leads.advance p).trans
          (leads_joining (leads_expressionWithin n) left p.peekPower j p.advance)
        rw [joinWithin_succ n hstops hj, joinWithin_succ (p := p.map f φ) n hstops hj, hpower,
          advance_map hφ, hjoining]
        generalize j.run (expressionWithin n) left p.peekPower p.advance = r at hleads
        obtain ⟨x, q⟩ := r
        cases x with
        | none => rfl
        | some joined => exact joinWithin_map n b joined q (hleads.grammar_eq ▸ hk)

end

theorem value_map (hk : p.grammar.Keeps f) : (p.map f φ).value = carry f φ p.value := by
  have hexpression : (p.map f φ).expression .lowest = carry f φ (p.expression .lowest) :=
    expressionWithin_map hφ p.levels .lowest p hk
  simp only [value, hexpression, carry, takeTerminator_map hφ]

/-! ## Statements -/

omit p in
theorem Skips.map {p q : Parser σ} (h : Skips p q) : Skips (p.map f φ) (q.map f φ) := by
  induction h with
  | here h => exact .here h
  | @next p q h _ ih =>
    rw [← advance_map hφ] at ih
    exact .next h ih

/-- A statement comes to the same over the other source. -/
theorem Dispatch.map {s : Option Stmt} {q : Parser σ} (h : Dispatch p s q)
    (hk : p.grammar.Keeps f) : Dispatch (p.map f φ) (s.map (Stmt.retext f)) (q.map f φ) := by
  have hadvance := advance_map hφ p
  cases h with
  | letNoName hf hname => exact .letNoName hf hname
  | letNoMark hf hname hmark =>
    have hd := Dispatch.letNoMark (p := p.map f φ) hf hname (by rw [hadvance]; exact hmark)
    rw [hadvance] at hd
    exact hd
  | letValue hf hname hmark hreads =>
    have hd := Dispatch.letValue (p := p.map f φ) hf hname (by rw [hadvance]; exact hmark) hreads
    rw [move_map hφ, value_map hφ _ (by rwa [grammar_move])] at hd
    exact hd
  | letSkip hf hname hmark hreads hq =>
    have hq := Skips.map hφ hq
    rw [← move_map hφ] at hq
    exact .letSkip (p := p.map f φ) hf hname (by rw [hadvance]; exact hmark) hreads hq
  | returnValue hf hreads hopen =>
    have hd := Dispatch.returnValue (p := p.map f φ) hf hreads (by rw [hadvance]; exact hopen)
    rw [hadvance, value_map hφ p.advance hk] at hd
    exact hd
  | returnSkip hf hbare hq =>
    have hq := Skips.map hφ hq
    rw [← hadvance] at hq
    exact .returnSkip (p := p.map f φ) hf (by rw [hadvance]; exact hbare) hq
  | expr hlet hreturn =>
    have hd := Dispatch.expr (p := p.map f φ) hlet hreturn
    rw [value_map hφ p hk] at hd
    have hs : (p.value.1.map (Expr.retext f)).map (Stmt.exprStmt (p.current.retext f)) =
        (p.value.1.map (Stmt.exprStmt p.current)).map (Stmt.retext f) := by
      cases p.value.1 <;> rfl
    exact hs ▸ hd

end Moves

/-! ## Whole runs -/

section Runs

variable [FiniteSource σ] [FiniteSource τ] (hφ : Source.Morphism f φ)
include hφ

theorem statements_map (p : Parser σ) (hk : p.grammar.Keeps f) :
    (p.map f φ).statements =
      (p.statements.1.map (Stmt.retext f), p.statements.2.map f φ) := by
  fun_induction statements p with
  | case1 p hend =>
    have hend : (p.map f φ).current.kind = .eof := hend
    rw [statements_of_eof hend]
    rfl
  | case2 p hne s rest ih =>
    have hne : (p.map f φ).current.kind ≠ .eof := hne
    have hrest := ih ((leads_statement p).grammar_eq ▸ hk)
    have hd := (dispatch_statement p).map hφ p hk
    rw [statements_of_ne_eof hne, hd.statement_eq, advance_map hφ, hrest]
    have hlist : (p.statement.1.map (Stmt.retext f)).toList =
        p.statement.1.toList.map (Stmt.retext f) := by
      cases p.statement.1 <;> rfl
    rw [hlist, ← List.map_append]

end Runs

end Parser

/-- The integers of the standard table keep their texts if those of integers do. -/
theorem Grammar.keeps_standard {f : Kind → String → String} (hf : ∀ s, f .integer s = s) :
    Grammar.standard.Keeps f := by
  intro k hk
  rw [Grammar.opening_standard_atom.2 hk]
  exact hf

section Parse

variable {σ τ : Type} [FiniteSource σ] [FiniteSource τ] {f : Kind → String → String} {φ : σ → τ}

/-- A parse over the image of a source is the image of the parse, with the same complaints. -/
theorem parse_map (hφ : Source.Morphism f φ) (hf : ∀ s, f .integer s = s) (source : σ)
    (config : Config) :
    parse (φ source) config =
      ⟨(parse source config).program.retext f, (parse source config).diagnostics,
        φ (parse source config).source⟩ := by
  have hstatements := Parser.statements_map hφ (Parser.ofSource source config)
    (Grammar.keeps_standard hf)
  rw [parse, Parser.program, Parser.ofSource_map hφ, hstatements]
  rfl

/-- Where no text is changed the program is the same. -/
theorem parse_map_self {φ : σ → τ} (hφ : Source.Morphism (fun _ s => s) φ) (source : σ)
    (config : Config) :
    parse (φ source) config =
      ⟨(parse source config).program, (parse source config).diagnostics,
        φ (parse source config).source⟩ := by
  rw [parse_map hφ (fun _ => rfl), Program.retext_self]

end Parse

/-! ## Texts decide nothing -/

/-- The tape with other texts. -/
def Tape.retext (f : Kind → String → String) (tape : Tape) : Tape :=
  ⟨tape.tokens.map (Token.retext f)⟩

/-- Behind its last token a tape gives the end of input, which is not on it; so that has to
keep its text. -/
theorem Tape.morphism_retext {f : Kind → String → String} (heof : ∀ s, f .eof s = s) :
    Source.Morphism f (Tape.retext f) where
  next_map tape := by
    obtain ⟨ts⟩ := tape
    cases ts with
    | nil =>
      have hend : Token.eof.retext f = .eof := congrArg (Token.mk .eof) (heof "")
      exact Prod.ext hend.symm rfl
    | cons t ts => rfl

/-- **Texts decide nothing.**  Whatever tokens there are, well placed or not: with all their
texts changed, each by its kind, but for those of integers and of the end of input, the
same is complained of, and the program is the same with its texts changed, in its tokens
and likewise in its names and operators. -/
theorem parse_retext (f : Kind → String → String) (hinteger : ∀ s, f .integer s = s)
    (heof : ∀ s, f .eof s = s) (tape : Tape) (config : Config) :
    (parse (tape.retext f) config).diagnostics = (parse tape config).diagnostics ∧
      (parse (tape.retext f) config).program = (parse tape config).program.retext f := by
  rw [parse_map (Tape.morphism_retext heof) hinteger tape config]
  exact ⟨rfl, rfl⟩

/-- Texts that would be those of other kinds change nothing: `let x = -5 ) ;` is read as before
where the word is `return`, the name `;`, the minus `*` and the parenthesis `(`. -/
theorem parse_retext_misleading :
    let f (k : Kind) (s : String) : String :=
      match k with
      | .kwLet => "return"
      | .identifier => ";"
      | .minus => "*"
      | .closeParen => "("
      | _ => s
    let tape := Tape.mk [⟨.kwLet, "let"⟩, ⟨.identifier, "x"⟩, ⟨.assign, "="⟩, ⟨.minus, "-"⟩,
      ⟨.integer, "5"⟩, ⟨.closeParen, ")"⟩, ⟨.semicolon, ";"⟩]
    (∀ s, f .integer s = s) ∧ (∀ s, f .eof s = s) ∧
      (parse (tape.retext f) ⟨true, 256⟩).diagnostics.toList = [.noOpening .closeParen] ∧
      (parse (tape.retext f) ⟨true, 256⟩).program.statements =
        [.letStmt ⟨.kwLet, "return"⟩ ⟨⟨.identifier, ";"⟩, ";"⟩
          (some (.unary ⟨.minus, "*"⟩ "*" (.integer ⟨.integer, "5"⟩ 5)))] := by
  intro f tape
  have hinteger (s : String) : f .integer s = s := rfl
  have heof (s : String) : f .eof s = s := rfl
  obtain ⟨hdiagnostics, hprogram⟩ := parse_retext f hinteger heof tape ⟨true, 256⟩
  refine ⟨hinteger, heof, ?_, ?_⟩
  · rw [hdiagnostics]
    decide +kernel
  · rw [hprogram]
    decide +kernel

/-! ## Sources that give the same -/

namespace Source

variable {σ τ : Type}

theorem get_next [Source σ] (s : σ) (n : Nat) : get (next s).2 n = get s (n + 1) := by
  rw [get, get, drop_succ]

/-- Two sources that give the same tokens, pulled together. -/
structure Twins (σ τ : Type) [Source σ] [Source τ] where
  left : σ
  right : τ
  same : ∀ n, get left n = get right n

namespace Twins

variable [Source τ]

/-- The next token of both. -/
def next [Source σ] (s : Twins σ τ) : Token × Twins σ τ :=
  ((Source.next s.left).1,
    { left := (Source.next s.left).2
      right := (Source.next s.right).2
      same := fun n => by rw [get_next, get_next, s.same] })

instance [FiniteSource σ] : FiniteSource (Twins σ τ) where
  next := next
  left s := FiniteSource.left s.left
  left_next_lt s := FiniteSource.left_next_lt s.left
  next_of_left_eq_zero s := FiniteSource.next_of_left_eq_zero s.left
  left_next_of_left_eq_zero s := FiniteSource.left_next_of_left_eq_zero s.left

variable [FiniteSource σ]

theorem morphism_left : Source.Morphism (fun _ s => s) (Twins.left : Twins σ τ → σ) where
  next_map _ := rfl

theorem morphism_right : Source.Morphism (fun _ s => s) (Twins.right : Twins σ τ → τ) where
  next_map s := Prod.ext (s.same 0).symm rfl

end Twins

end Source

/-- Sources that give the same are parsed alike. -/
theorem parse_of_get_eq {σ τ : Type} [FiniteSource σ] [FiniteSource τ] {s : σ} {t : τ}
    (h : ∀ n, Source.get s n = Source.get t n) (config : Config) :
    (parse s config).program = (parse t config).program ∧
      (parse s config).diagnostics = (parse t config).diagnostics := by
  have hleft := parse_map_self Source.Twins.morphism_left (⟨s, t, h⟩ : Source.Twins σ τ) config
  have hright := parse_map_self Source.Twins.morphism_right (⟨s, t, h⟩ : Source.Twins σ τ) config
  exact ⟨(congrArg Parsed.program hleft).trans (congrArg Parsed.program hright).symm,
    (congrArg Parsed.diagnostics hleft).trans (congrArg Parsed.diagnostics hright).symm⟩

end Frontend
