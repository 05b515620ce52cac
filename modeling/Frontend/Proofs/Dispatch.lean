/-
# `Frontend.Proofs.Dispatch` — what a statement may come to

The functions that parse statements, as a relation with one case for each way
through them.  `Dispatch p s q` says that the statement at `p` comes to the
answer `s` and leaves the parser at `q`.  A case carries every test that was
made on its way, so a proof about statements is an analysis of cases and unfolds
nothing.

The relation is over any source.  Passing over tokens ends at a terminator or at
the end of input, and over a source without end there may be neither; then the
statement comes to nothing at all.  Over a finite source every statement comes to
something, and the relation is the graph of the function (`dispatch_iff`).
-/
import Frontend.Parser.Statement
import Frontend.Proofs.Soundness

namespace Frontend.Parser

variable {σ : Type}

section Dispatch

variable [Source σ]

/-- Passing over tokens from one state ends at another, which is the first at a
terminator or at the end of input. -/
inductive Skips : Parser σ → Parser σ → Prop where
  | here {p : Parser σ} (h : p.atTerminator = true) : Skips p p
  | next {p q : Parser σ} (h : p.atTerminator = false) (hq : Skips p.advance q) : Skips p q

/-- The statement at a state comes to an answer and to a state. -/
inductive Dispatch (p : Parser σ) : Option Stmt → Parser σ → Prop where
  /-- Behind the word of a `let` stands no name. -/
  | letNoName (hf : p.grammar.form p.current.kind = some .letForm)
      (hname : p.peek.kind ≠ .identifier) :
      Dispatch p none (p.report (.unexpected .identifier p.peek.kind))
  /-- Behind the name of a `let` stands no mark. -/
  | letNoMark (hf : p.grammar.form p.current.kind = some .letForm)
      (hname : p.peek.kind = .identifier) (hmark : p.advance.peek.kind ≠ .assign) :
      Dispatch p none (p.advance.report (.unexpected .assign p.advance.peek.kind))
  /-- The value of a `let` is read, or was to be read. -/
  | letValue (hf : p.grammar.form p.current.kind = some .letForm)
      (hname : p.peek.kind = .identifier) (hmark : p.advance.peek.kind = .assign)
      (hreads : p.config.readValues = true) :
      Dispatch p (some (.letStmt p.current (.ofToken p.peek) (p.move 3).value.1)) (p.move 3).value.2
  /-- The value of a `let` is passed over, its mark included. -/
  | letSkip {q : Parser σ} (hf : p.grammar.form p.current.kind = some .letForm)
      (hname : p.peek.kind = .identifier) (hmark : p.advance.peek.kind = .assign)
      (hreads : p.config.readValues = false) (hq : Skips (p.move 2) q) :
      Dispatch p (some (.letStmt p.current (.ofToken p.peek) none)) q
  /-- The value of a `return` is read, or was to be read. -/
  | returnValue (hf : p.grammar.form p.current.kind = some .returnForm)
      (hreads : p.config.readValues = true) (hopen : p.advance.atTerminator = false) :
      Dispatch p (some (.returnStmt p.current p.advance.value.1)) p.advance.value.2
  /-- A `return` has no value, or it is passed over. -/
  | returnSkip {q : Parser σ} (hf : p.grammar.form p.current.kind = some .returnForm)
      (hbare : p.config.readValues = false ∨ p.advance.atTerminator = true)
      (hq : Skips p.advance q) :
      Dispatch p (some (.returnStmt p.current none)) q
  /-- Anything else is an expression by itself. -/
  | expr (hlet : p.grammar.form p.current.kind ≠ some .letForm)
      (hreturn : p.grammar.form p.current.kind ≠ some .returnForm) :
      Dispatch p (p.value.1.map (.exprStmt p.current)) p.value.2

theorem expect_of_eq {p : Parser σ} {k : Kind} (h : p.peek.kind = k) :
    p.expect k = (true, p.advance) :=
  if_pos h

theorem expect_of_ne {p : Parser σ} {k : Kind} (h : p.peek.kind ≠ k) :
    p.expect k = (false, p.report (.unexpected k p.peek.kind)) :=
  if_neg h

/-- Where passing over tokens always ends, a statement comes to something. -/
theorem exists_dispatch_of_skips (p : Parser σ) (hskips : ∀ n, ∃ q, Skips (p.move n) q) :
    ∃ s q, Dispatch p s q := by
  by_cases hlet : p.grammar.form p.current.kind = some .letForm
  · by_cases hname : p.peek.kind = .identifier
    · by_cases hmark : p.advance.peek.kind = .assign
      · cases hreads : p.config.readValues with
        | true => exact ⟨_, _, .letValue hlet hname hmark hreads⟩
        | false =>
          obtain ⟨q, hq⟩ := hskips 2
          exact ⟨_, _, .letSkip hlet hname hmark hreads hq⟩
      · exact ⟨_, _, .letNoMark hlet hname hmark⟩
    · exact ⟨_, _, .letNoName hlet hname⟩
  · by_cases hreturn : p.grammar.form p.current.kind = some .returnForm
    · obtain ⟨q, hq⟩ := hskips 1
      cases hreads : p.config.readValues with
      | true =>
        cases hend : p.advance.atTerminator with
        | true => exact ⟨_, _, .returnSkip hreturn (.inr hend) hq⟩
        | false => exact ⟨_, _, .returnValue hreturn hreads hend⟩
      | false => exact ⟨_, _, .returnSkip hreturn (.inl hreads) hq⟩
    · exact ⟨_, _, .expr hlet hreturn⟩

end Dispatch

/-! ## Over a finite source the relation is the function -/

section Finite

variable [FiniteSource σ] {p q : Parser σ} {s : Option Stmt}

theorem skips_skipToTerminator (p : Parser σ) : Skips p p.skipToTerminator := by
  fun_induction skipToTerminator p with
  | case1 p h => exact .here h
  | case2 p h ih => exact .next (Bool.eq_false_iff.2 h) ih

theorem Skips.eq (h : Skips p q) : p.skipToTerminator = q := by
  induction h with
  | here h => rw [skipToTerminator, if_pos h]
  | next h _ ih => rw [skipToTerminator, if_neg (Bool.eq_false_iff.1 h), ih]

theorem statement_of_letForm (h : p.grammar.form p.current.kind = some .letForm) :
    p.statement = p.letStatement := by
  rw [statement, h]
  rfl

theorem statement_of_returnForm (h : p.grammar.form p.current.kind = some .returnForm) :
    p.statement = p.returnStatement := by
  rw [statement, h]
  rfl

theorem statement_of_exprForm (hlet : p.grammar.form p.current.kind ≠ some .letForm)
    (hreturn : p.grammar.form p.current.kind ≠ some .returnForm) :
    p.statement = p.exprStatement := by
  rw [statement]
  split
  · next f hf =>
    cases f with
    | letForm => exact absurd hf hlet
    | returnForm => exact absurd hf hreturn
    | exprForm => rfl
  · rfl

theorem Dispatch.statement_eq (h : Dispatch p s q) : p.statement = (s, q) := by
  cases h with
  | letNoName hf hname => simp only [statement_of_letForm hf, letStatement, expect_of_ne hname]
  | letNoMark hf hname hmark =>
    simp only [statement_of_letForm hf, letStatement, expect_of_eq hname, expect_of_ne hmark]
  | letValue hf hname hmark hreads =>
    have hconfig : p.advance.advance.config.readValues = true := hreads
    simp only [statement_of_letForm hf, letStatement, expect_of_eq hname, expect_of_eq hmark,
      if_pos hconfig]
    rfl
  | letSkip hf hname hmark hreads hq =>
    have hconfig : ¬ p.advance.advance.config.readValues = true := Bool.eq_false_iff.1 hreads
    simp only [statement_of_letForm hf, letStatement, expect_of_eq hname, expect_of_eq hmark,
      if_neg hconfig]
    rw [← hq.eq]
    rfl
  | returnValue hf hreads hopen =>
    have hconfig : p.advance.config.readValues = true := hreads
    simp only [statement_of_returnForm hf, returnStatement, if_pos (And.intro hconfig hopen)]
  | returnSkip hf hbare hq =>
    have hconfig : ¬ (p.advance.config.readValues = true ∧ p.advance.atTerminator = false) := by
      rintro ⟨hreads, hopen⟩
      rcases hbare with hbare | hbare
      · exact Bool.eq_false_iff.1 hbare hreads
      · exact Bool.eq_false_iff.1 hopen hbare
    simp only [statement_of_returnForm hf, returnStatement, if_neg hconfig, hq.eq]
  | expr hlet hreturn => rw [statement_of_exprForm hlet hreturn, exprStatement]

/-- Over a finite source every statement comes to something. -/
theorem exists_dispatch (p : Parser σ) : ∃ s q, Dispatch p s q :=
  exists_dispatch_of_skips p fun _ => ⟨_, skips_skipToTerminator _⟩

theorem dispatch_iff : Dispatch p s q ↔ p.statement = (s, q) := by
  refine ⟨Dispatch.statement_eq, fun h => ?_⟩
  obtain ⟨s', q', hd⟩ := exists_dispatch p
  obtain ⟨rfl, rfl⟩ := Prod.ext_iff.1 (hd.statement_eq.symm.trans h)
  exact hd

theorem dispatch_statement (p : Parser σ) : Dispatch p p.statement.1 p.statement.2 :=
  dispatch_iff.2 rfl

/-! ## A run by its first statement -/

theorem statements_of_eof (h : p.current.kind = .eof) : p.statements = ([], p) := by
  rw [statements, if_pos h]

theorem statements_of_ne_eof (h : p.current.kind ≠ .eof) :
    p.statements =
      (p.statement.1.toList ++ p.statement.2.advance.statements.1,
        p.statement.2.advance.statements.2) := by
  rw [statements, if_neg h]

theorem leads_statements (p : Parser σ) : Leads p p.statements.2 := by
  fun_induction statements p with
  | case1 p _ => exact .refl p
  | case2 p _ s rest ih =>
    have hs : Leads p s.2 := leads_statement p
    exact (hs.trans (.advance _)).trans ih

/-- A run without a problem has one in no part. -/
theorem clean_of_statements (h : p.current.kind ≠ .eof)
    (hclean : p.statements.2.diagnostics.size = p.diagnostics.size) :
    p.statement.2.diagnostics.size = p.diagnostics.size ∧
      p.statement.2.advance.statements.2.diagnostics.size =
        p.statement.2.advance.diagnostics.size := by
  have hfirst : p.diagnostics.size ≤ p.statement.2.diagnostics.size := (leads_statement p).size_le
  have hlater : p.statement.2.diagnostics.size ≤
      p.statement.2.advance.statements.2.diagnostics.size :=
    (leads_statements p.statement.2.advance).size_le
  have hadvance : p.statement.2.advance.diagnostics = p.statement.2.diagnostics := rfl
  simp only [statements_of_ne_eof h] at hclean
  rw [hadvance]
  omega

end Finite

/-! ## What the parts of a statement come to -/

section Parts

variable [Source σ] {p q : Parser σ}

theorem Skips.exists_move (h : Skips p q) : ∃ k, q = p.move k := by
  induction h with
  | here _ => exact ⟨0, rfl⟩
  | next _ _ ih =>
    obtain ⟨k, rfl⟩ := ih
    exact ⟨k + 1, rfl⟩

/-- The mark of a `let` is no terminator, so the mark is passed over with what is behind it. -/
theorem Skips.behind_mark (h : Skips (p.move 2) q) (hmark : p.advance.peek.kind = .assign) :
    Skips (p.move 3) q := by
  have hopen : (p.move 2).atTerminator = false := by
    show (p.advance.peek.is .semicolon || p.advance.peek.is .eof) = false
    rw [Token.is, Token.is, hmark]
    rfl
  cases h with
  | here hend => exact absurd hend (Bool.eq_false_iff.1 hopen)
  | next _ hq => exact hq

theorem takeTerminator_move (p : Parser σ) (n : Nat) :
    ∃ k, (p.move n).takeTerminator = p.move k := by
  rw [takeTerminator]
  split
  · exact ⟨n + 1, advance_move p n⟩
  · exact ⟨n, rfl⟩

theorem takeTerminator_report (p : Parser σ) (e : Problem) :
    (p.report e).takeTerminator = p.takeTerminator.report e := by
  have hpeek : (p.report e).peek = p.peek := rfl
  rw [takeTerminator, takeTerminator, hpeek]
  split <;> rfl

theorem Fails.takeTerminator (h : Fails p q) : Fails p q.takeTerminator := by
  obtain ⟨n, e, rfl⟩ := h
  obtain ⟨k, hk⟩ := takeTerminator_move p n
  exact ⟨k, e, by rw [takeTerminator_report, hk]⟩

/-- A value is read, and a phrase stands for it that the next token ends, or one
problem was reported. -/
theorem outcome_value (p : Parser σ) (hg : p.grammar.Joins) :
    (∃ c, Spells p c (p.move c.width) ∧ p.grammar.Stops .lowest (p.move c.width).peek ∧
        p.value = (some c.erase, (p.move c.width).takeTerminator)) ∨
      ∃ q, p.value = (none, q) ∧ Fails p q := by
  have ho := outcome_expression .lowest p hg
  rw [value]
  cases hr : p.expression .lowest with
  | mk r q =>
    rw [hr] at ho
    cases r with
    | some e =>
      obtain ⟨c, hc, rfl, -, hstops⟩ := ho
      obtain rfl := hc.eq_move
      exact .inl ⟨c, hc, hstops, rfl⟩
    | none => exact .inr ⟨_, rfl, Fails.takeTerminator ho⟩

end Parts

end Frontend.Parser
