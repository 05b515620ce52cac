/-
# `Frontend.Proofs.Limit` — a limit that was not met

The nesting limit is met where an expression needs a level and there is none
left, and then it is complained of.  A parse without that complaint is the same
under every higher limit: the program, the other complaints in their order, and
the source as it is left.

Under the higher limit the parser has more levels to open at every step, and is
otherwise the same state, `p.withLimit m`.  So one run is compared with another
over the same recursion (`expressionWithin_withLimit`), as long as the first has
not met the limit.  A complaint is never taken back, and so a run that has not
met the limit at its end has not met it anywhere on the way; that is what each
step asks for (`Leads.unhindered`).
-/
import Frontend.Proofs.Dispatch

namespace Frontend

namespace Parser

variable {σ : Type}

/-! ## Another limit -/

/-- The same state under another limit. -/
def withLimit (m : Nat) (p : Parser σ) : Parser σ :=
  { p with config := { p.config with maxDepth := m } }

/-- An answer, with the state under another limit. -/
def relimit {α : Type} (m : Nat) (r : α × Parser σ) : α × Parser σ :=
  (r.1, r.2.withLimit m)

/-- No complaint says that the limit was met. -/
def Unhindered (p : Parser σ) : Prop :=
  .tooDeep p.config.maxDepth ∉ p.diagnostics.toList

theorem not_unhindered_report (p : Parser σ) :
    ¬ (p.report (.tooDeep p.config.maxDepth)).Unhindered := by
  intro h
  refine h ?_
  simp only [report, Diagnostics.toList_report]
  exact List.mem_append_right _ List.mem_cons_self

section Expressions

variable [Source σ] {p q : Parser σ} {m : Nat}

/-- Where the limit was not met in the end, it was not met before. -/
theorem Leads.unhindered (h : Leads p q) (hq : q.Unhindered) : p.Unhindered := by
  obtain ⟨n, hn⟩ := h
  intro hp
  refine hq ?_
  rw [hn.config_eq]
  exact (Leads.toList_isPrefix ⟨n, hn⟩).subset hp

theorem expect_withLimit (m : Nat) (p : Parser σ) (k : Kind) :
    (p.withLimit m).expect k = relimit m (p.expect k) := by
  by_cases hk : p.peek.kind = k
  · rw [expect_of_eq hk]
    exact expect_of_eq (p := p.withLimit m) hk
  · rw [expect_of_ne hk]
    exact expect_of_ne (p := p.withLimit m) hk

theorem takeTerminator_withLimit (m : Nat) (p : Parser σ) :
    (p.withLimit m).takeTerminator = p.takeTerminator.withLimit m := by
  have hpeek : (p.withLimit m).peek = p.peek := rfl
  rw [takeTerminator, takeTerminator, hpeek]
  split <;> rfl

/-! ## Expressions -/

/-- What is asked of the operands on the way down: the second comes to the same under
the other limit, wherever the first did not meet its own. -/
def Surpasses (m : Nat) (operand' operand : Operand σ) : Prop :=
  ∀ b p, (operand b p).2.Unhindered → operand' b (p.withLimit m) = relimit m (operand b p)

section Steps

variable {operand operand' : Operand σ}

theorem opening_withLimit (ho : Surpasses m operand' operand) (o : Opening) (p : Parser σ)
    (h : (o.run operand p).2.Unhindered) :
    o.run operand' (p.withLimit m) = relimit m (o.run operand p) := by
  have hadvance : (p.withLimit m).advance = p.advance.withLimit m := rfl
  cases o with
  | ident => rfl
  | integer =>
    have hcurrent : (p.withLimit m).current = p.current := rfl
    simp only [Opening.run, hcurrent]
    cases Numeral.read? p.current.text <;> rfl
  | unary =>
    have hx := ho .unary p.advance
    simp only [Opening.run, hadvance] at h ⊢
    generalize operand .unary p.advance = r at h hx ⊢
    obtain ⟨x, q⟩ := r
    cases x <;> rw [hx h] <;> rfl
  | group =>
    have hx := ho .lowest p.advance
    simp only [Opening.run, hadvance] at h ⊢
    generalize operand .lowest p.advance = r at h hx ⊢
    obtain ⟨x, q⟩ := r
    cases x with
    | none =>
      rw [hx h]
      rfl
    | some e =>
      by_cases hk : q.peek.kind = .closeParen
      · simp only [expect_of_eq hk] at h ⊢
        rw [hx ((Leads.advance q).unhindered h)]
        simp only [relimit, expect_withLimit, expect_of_eq hk]
      · simp only [expect_of_ne hk] at h ⊢
        rw [hx ((Leads.report q _).unhindered h)]
        simp only [relimit, expect_withLimit, expect_of_ne hk]

theorem joining_withLimit (ho : Surpasses m operand' operand) (e : Expr) (b : Power) (j : Joining)
    (p : Parser σ) (h : (j.run operand e b p).2.Unhindered) :
    j.run operand' e b (p.withLimit m) = relimit m (j.run operand e b p) := by
  have hadvance : (p.withLimit m).advance = p.advance.withLimit m := rfl
  cases j with
  | binary =>
    have hx := ho b p.advance
    simp only [Joining.run, hadvance] at h ⊢
    generalize operand b p.advance = r at h hx ⊢
    obtain ⟨x, q⟩ := r
    cases x <;> rw [hx h] <;> rfl

end Steps

mutual

theorem expressionWithin_withLimit (n : Nat) {n' : Nat} (hn : n ≤ n') :
    Surpasses m (expressionWithin n' (σ := σ)) (expressionWithin n) := by
  intro b p h
  have hcurrent : (p.withLimit m).current = p.current := rfl
  have hgrammar : (p.withLimit m).grammar = p.grammar := rfl
  match n with
  | 0 =>
    rw [expressionWithin] at h
    exact absurd h (not_unhindered_report p)
  | n + 1 =>
    obtain ⟨k, rfl⟩ := Nat.exists_eq_add_of_le' hn
    have hk : n ≤ k + n := Nat.le_add_left n k
    rw [← Nat.add_assoc, expressionWithin, hgrammar, hcurrent]
    rw [expressionWithin] at h ⊢
    cases ho : p.grammar.opening p.current.kind with
    | none => rfl
    | some o =>
      have hopening := opening_withLimit (expressionWithin_withLimit n hk) o p
      simp only [ho] at h ⊢
      generalize o.run (expressionWithin n) p = r at h hopening ⊢
      obtain ⟨x, q⟩ := r
      cases x with
      | none =>
        rw [hopening h]
        rfl
      | some e =>
        rw [hopening ((leads_joinWithin n b e q).unhindered h)]
        exact joinWithin_withLimit n hk b e q h

theorem joinWithin_withLimit (n : Nat) {n' : Nat} (hn : n ≤ n') (b : Power) (e : Expr)
    (p : Parser σ) (h : (joinWithin n b e p).2.Unhindered) :
    joinWithin n' b e (p.withLimit m) = relimit m (joinWithin n b e p) := by
  by_cases hstops : p.grammar.Stops b p.peek
  · rw [joinWithin_of_stops n hstops]
    exact joinWithin_of_stops n' hstops
  · cases hj : p.grammar.joining p.peek.kind with
    | none =>
      rw [joinWithin_of_joining n hj]
      exact joinWithin_of_joining n' hj
    | some j =>
      match n with
      | 0 =>
        rw [joinWithin_zero hstops hj] at h
        exact absurd h (not_unhindered_report p)
      | n + 1 =>
        obtain ⟨k, rfl⟩ := Nat.exists_eq_add_of_le' hn
        have hk : n ≤ k + n := Nat.le_add_left n k
        have hjoining :=
          joining_withLimit (expressionWithin_withLimit n hk) e p.peekPower j p.advance
        have hstep : joinWithin (k + (n + 1)) b e (p.withLimit m) = _ :=
          joinWithin_succ (k + n) hstops hj
        have hpower : (p.withLimit m).peekPower = p.peekPower := rfl
        have hadvance : (p.withLimit m).advance = p.advance.withLimit m := rfl
        rw [joinWithin_succ n hstops hj] at h ⊢
        rw [hstep, hpower, hadvance]
        generalize j.run (expressionWithin n) e p.peekPower p.advance = r at h hjoining ⊢
        obtain ⟨x, q⟩ := r
        cases x with
        | none =>
          rw [hjoining h]
          rfl
        | some e' =>
          rw [hjoining ((leads_joinWithin n b e' q).unhindered h)]
          exact joinWithin_withLimit n hk b e' q h

end

/-- Under a higher limit there are more levels to open. -/
theorem expression_withLimit (b : Power) (p : Parser σ) (hm : p.config.maxDepth ≤ m)
    (h : (p.expression b).2.Unhindered) :
    (p.withLimit m).expression b = relimit m (p.expression b) :=
  expressionWithin_withLimit p.levels (Nat.sub_le_sub_right hm p.depth) b p h

/-! ## Statements -/

theorem value_withLimit (p : Parser σ) (hm : p.config.maxDepth ≤ m) (h : p.value.2.Unhindered) :
    (p.withLimit m).value = relimit m p.value := by
  have hq : (p.expression .lowest).2.Unhindered := (leads_takeTerminator _).unhindered h
  rw [value, value, expression_withLimit .lowest p hm hq]
  simp only [relimit, takeTerminator_withLimit]

theorem Skips.withLimit (h : Skips p q) (m : Nat) : Skips (p.withLimit m) (q.withLimit m) := by
  induction h with
  | here h => exact .here h
  | next h _ ih => exact .next h ih

/-- A statement in which the limit was not met comes to the same under a higher one. -/
theorem Dispatch.withLimit {s : Option Stmt} (h : Dispatch p s q) (hm : p.config.maxDepth ≤ m)
    (hq : q.Unhindered) : Dispatch (p.withLimit m) s (q.withLimit m) := by
  cases h with
  | letNoName hf hname => exact .letNoName hf hname
  | letNoMark hf hname hmark => exact .letNoMark hf hname hmark
  | letValue hf hname hmark hreads =>
    have hv : ((p.withLimit m).move 3).value = relimit m (p.move 3).value :=
      value_withLimit (p.move 3) hm hq
    have hd := Dispatch.letValue (p := p.withLimit m) hf hname hmark hreads
    rw [hv] at hd
    exact hd
  | letSkip hf hname hmark hreads hskips =>
    exact .letSkip (p := p.withLimit m) hf hname hmark hreads (hskips.withLimit m)
  | returnValue hf hreads hopen =>
    have hv : (p.withLimit m).advance.value = relimit m p.advance.value :=
      value_withLimit p.advance hm hq
    have hd := Dispatch.returnValue (p := p.withLimit m) hf hreads hopen
    rw [hv] at hd
    exact hd
  | returnSkip hf hbare hskips =>
    exact .returnSkip (p := p.withLimit m) hf hbare (hskips.withLimit m)
  | expr hlet hreturn =>
    have hd := Dispatch.expr (p := p.withLimit m) hlet hreturn
    rw [value_withLimit p hm hq] at hd
    exact hd

end Expressions

/-! ## Whole programs -/

theorem statements_withLimit [FiniteSource σ] {m : Nat} (p : Parser σ)
    (hm : p.config.maxDepth ≤ m) (h : p.statements.2.Unhindered) :
    (p.withLimit m).statements = relimit m p.statements := by
  fun_induction statements p with
  | case1 p hend => exact statements_of_eof (p := p.withLimit m) hend
  | case2 p hne s rest ih =>
    have hfirst : s.2.Unhindered := ((Leads.advance _).trans (leads_statements _)).unhindered h
    have hd : Dispatch (p.withLimit m) s.1 (s.2.withLimit m) :=
      (dispatch_statement p).withLimit hm hfirst
    have hconfig : s.2.advance.config = p.config := (leads_statement p).config_eq
    have hrest : (s.2.withLimit m).advance.statements = relimit m rest :=
      ih (hconfig ▸ hm) h
    rw [statements_of_ne_eof (p := p.withLimit m) hne, hd.statement_eq, hrest]
    rfl

end Parser

/-- **A limit that was not met.**  If a parse of any finite source does not complain that
its limit was met, every higher limit gives the same: the program, the other complaints
in their order, and the source as it is left. -/
theorem parse_maxDepth {σ : Type} [FiniteSource σ] (source : σ) (config : Config) (limit : Nat)
    (hlimit : config.maxDepth ≤ limit)
    (h : .tooDeep config.maxDepth ∉ (parse source config).diagnostics.toList) :
    parse source { config with maxDepth := limit } = parse source config := by
  have hconfig : (Parser.ofSource source config).statements.2.config = config := by
    obtain ⟨n, hn⟩ := Parser.leads_statements (Parser.ofSource source config)
    exact hn.config_eq
  have hrun : (Parser.ofSource source { config with maxDepth := limit }).statements = _ :=
    Parser.statements_withLimit (Parser.ofSource source config) hlimit (by
      rw [Parser.Unhindered, hconfig]
      exact h)
  rw [parse, Parser.program, hrun]
  rfl

/-- `let 5 ; ( a + b` has two problems and needs four levels.  With nine levels it has the
same problems and the same statements.  That the ends of input behind it have a text is of
no account. -/
theorem parse_maxDepth_unclosed :
    let source := Sequence.closed [⟨.kwLet, "let"⟩, ⟨.integer, "5"⟩, ⟨.semicolon, ";"⟩,
      ⟨.openParen, "("⟩, ⟨.identifier, "a"⟩, ⟨.plus, "+"⟩, ⟨.identifier, "b"⟩] ⟨.eof, "<eof>"⟩ rfl
    let config : Config := ⟨true, 4⟩
    config.maxDepth ≤ 9 ∧
      (parse source config).diagnostics.toList =
        [.unexpected .identifier .integer, .unexpected .closeParen .eof] ∧
      parse source ⟨true, 9⟩ = parse source config := by
  intro source config
  have hproblems : (parse source config).diagnostics.toList =
      [.unexpected .identifier .integer, .unexpected .closeParen .eof] := by decide +kernel
  have hlimit : config.maxDepth ≤ 9 := by decide
  exact ⟨hlimit, hproblems, parse_maxDepth source config 9 hlimit (by rw [hproblems]; decide)⟩

/-- With three levels the limit is met, and a higher one gives something else. -/
example :
    let source := Tape.mk [⟨.openParen, "("⟩, ⟨.identifier, "a"⟩, ⟨.plus, "+"⟩, ⟨.identifier, "b"⟩]
    (parse source ⟨true, 3⟩).diagnostics.toList = [.tooDeep 3] ∧
      (parse source ⟨true, 4⟩).diagnostics.toList = [.unexpected .closeParen .eof] := by
  decide +kernel

end Frontend
