/-
# `Frontend.Proofs.Warrant` — nothing is done without a reason

A parser does two things while it reads: it moves on, and it complains.

A complaint says something about the window at which it was made: that the
current token begins no expression, that the next one is not the one that was
due, that the text of the current one is no integer.  `Causes` says when this is so
at a state.  A move has a reason as long as there is something in the window
(`Proceeds`); a parser whose table does not speak of the end of input has no
business beyond it.

What is read between two states is `Warranted`: the second is the first, advanced
and with problems reported, and there was a reason each time.  Other than `Leads`,
which allows any move and any report, this knows how a handler was entered.  So the
openings and joinings are asked here for their entry in the table: only there is it
known that the text that is no integer was to be one, and that the operator that is
passed is not the end of input.

A whole run makes one move more behind each statement, with or without a reason.  Its
problems still were caused at states that it has passed (`exists_causes_of_mem`), and
so nothing is complained of that is not in the source.
-/
import Frontend.Proofs.Dispatch

namespace Frontend

/-- The table has nothing for the end of input. -/
structure Grammar.EndsAtEof (g : Grammar) : Prop where
  opening_eq : g.opening .eof = none
  joining_eq : g.joining .eof = none
  form_eq : g.form .eof = none

theorem Grammar.endsAtEof_standard : standard.EndsAtEof :=
  ⟨rfl, rfl, rfl⟩

namespace Parser

variable {σ : Type}

/-! ## Reasons -/

/-- What a problem says is so at a state. -/
inductive Causes (p : Parser σ) : Problem → Prop where
  /-- The current token opens nothing. -/
  | noOpening (h : p.grammar.opening p.current.kind = none) : Causes p (.noOpening p.current.kind)
  /-- The next token is not of the kind that was due. -/
  | unexpected {k : Kind} (h : p.peek.kind ≠ k) : Causes p (.unexpected k p.peek.kind)
  /-- The current token is to be an integer, and its text is none. -/
  | notAnInteger (ho : p.grammar.opening p.current.kind = some .integer)
      (h : Numeral.read? p.current.text = none) : Causes p (.notAnInteger p.current.text)
  /-- The limit is that of the settings. -/
  | tooDeep : Causes p (.tooDeep p.config.maxDepth)

/-- There is something in the window to move on from, unless the table has a use for the end
of input. -/
def Proceeds (p : Parser σ) : Prop :=
  p.grammar.EndsAtEof → p.current.kind ≠ .eof ∨ p.peek.kind ≠ .eof

section Proceeds

variable {p : Parser σ} {k : Kind}

theorem Proceeds.of_current (h : p.current.kind = k) (hk : k ≠ .eof) : p.Proceeds :=
  fun _ => .inl (h ▸ hk)

theorem Proceeds.of_peek (h : p.peek.kind = k) (hk : k ≠ .eof) : p.Proceeds :=
  fun _ => .inr (h ▸ hk)

theorem Proceeds.of_opening {o : Opening} (h : p.grammar.opening p.current.kind = some o) :
    p.Proceeds := by
  refine fun hg => .inl fun heof => ?_
  rw [heof, hg.opening_eq] at h
  cases h

theorem Proceeds.of_joining {j : Joining} (h : p.grammar.joining p.current.kind = some j) :
    p.Proceeds := by
  refine fun hg => .inl fun heof => ?_
  rw [heof, hg.joining_eq] at h
  cases h

theorem Proceeds.of_joining_peek {j : Joining} (h : p.grammar.joining p.peek.kind = some j) :
    p.Proceeds := by
  refine fun hg => .inr fun heof => ?_
  rw [heof, hg.joining_eq] at h
  cases h

theorem Proceeds.of_form {f : Form} (h : p.grammar.form p.current.kind = some f) :
    p.Proceeds := by
  refine fun hg => .inl fun heof => ?_
  rw [heof, hg.form_eq] at h
  cases h

theorem Proceeds.of_open (h : p.atTerminator = false) : p.Proceeds := by
  refine fun _ => .inl fun heof => ?_
  simp [atTerminator, Token.is, heof] at h

end Proceeds

variable [Source σ]

/-- A problem speaks of nothing but the window, the table and the settings, and these are
what so many moves lead to. -/
theorem Causes.of_reaches {p q : Parser σ} {m n : Nat} {e : Problem} (h : (q.move n).Causes e)
    (hq : Reaches p m q) : (p.move (m + n)).Causes e := by
  have hcurrent : (q.move n).current = (p.move (m + n)).current := hq.current_move n
  have hpeek : (q.move n).peek = (p.move (m + n)).peek := by
    rw [peek_move, peek_move]
    exact hq.current_move (n + 1)
  have hgrammar : (q.move n).grammar = (p.move (m + n)).grammar := by
    rw [grammar_move, grammar_move, hq.grammar_eq]
  have hconfig : (q.move n).config = (p.move (m + n)).config := by
    rw [config_move, config_move, hq.config_eq]
  cases h with
  | noOpening h =>
    rw [hgrammar, hcurrent] at h
    rw [hcurrent]
    exact .noOpening h
  | unexpected h =>
    rw [hpeek] at h ⊢
    exact .unexpected h
  | notAnInteger ho h =>
    rw [hgrammar, hcurrent] at ho
    rw [hcurrent] at h ⊢
    exact .notAnInteger ho h
  | tooDeep =>
    rw [hconfig]
    exact .tooDeep

/-- The second state is the first, advanced and with problems reported, each time with a
reason. -/
inductive Warranted (p : Parser σ) : Parser σ → Prop where
  | refl : Warranted p p
  | advance {q : Parser σ} (h : Warranted p q) (hq : q.Proceeds) : Warranted p q.advance
  | report {q : Parser σ} {e : Problem} (h : Warranted p q) (he : q.Causes e) :
      Warranted p (q.report e)

section Warranted

variable {p q r : Parser σ}

theorem Warranted.trans (h : Warranted p q) (k : Warranted q r) : Warranted p r := by
  induction k with
  | refl => exact h
  | advance _ hq ih => exact ih.advance hq
  | report _ he ih => exact ih.report he

theorem Warranted.leads (h : Warranted p q) : Leads p q := by
  induction h with
  | refl => exact .refl p
  | advance _ _ ih => exact ih.trans (.advance _)
  | report _ _ ih => exact ih.trans (.report _ _)

/-- What was reported on the way was caused some tokens on. -/
theorem Warranted.exists_causes (h : Warranted p q) {e : Problem}
    (he : e ∈ q.diagnostics.toList) : e ∈ p.diagnostics.toList ∨ ∃ n, (p.move n).Causes e := by
  induction h with
  | refl => exact .inl he
  | advance _ _ ih => exact ih he
  | @report q e' h hcauses ih =>
    have hlist : (q.report e').diagnostics.toList = q.diagnostics.toList ++ [e'] :=
      Diagnostics.toList_report _ _
    rw [hlist] at he
    rcases List.mem_append.1 he with hbefore | hnew
    · exact ih hbefore
    · obtain rfl := List.mem_singleton.1 hnew
      obtain ⟨m, hm⟩ := h.leads
      exact .inr ⟨m, Causes.of_reaches (n := 0) hcauses hm⟩

theorem warranted_advance (h : p.Proceeds) : Warranted p p.advance :=
  Warranted.refl.advance h

theorem warranted_report {e : Problem} (h : p.Causes e) : Warranted p (p.report e) :=
  Warranted.refl.report h

theorem warranted_expect {k : Kind} (p : Parser σ) (hk : k ≠ .eof) :
    Warranted p (p.expect k).2 := by
  by_cases hpeek : p.peek.kind = k
  · rw [expect_of_eq hpeek]
    exact warranted_advance (.of_peek hpeek hk)
  · rw [expect_of_ne hpeek]
    exact warranted_report (.unexpected hpeek)

theorem warranted_takeTerminator (p : Parser σ) : Warranted p p.takeTerminator := by
  unfold takeTerminator
  split
  · next hpeek => exact warranted_advance (.of_peek hpeek Kind.noConfusion)
  · exact .refl

/-! ## Expressions -/

/-- What is asked of the operands on the way down. -/
def WarrantedOn (operand : Operand σ) : Prop :=
  ∀ b p, Warranted p (operand b p).2

theorem warranted_opening {operand : Operand σ} (ho : WarrantedOn operand) (o : Opening)
    (hopens : p.grammar.opening p.current.kind = some o) : Warranted p (o.run operand p).2 := by
  have hadvance : Warranted p p.advance := warranted_advance (.of_opening hopens)
  cases o with
  | ident => exact .refl
  | integer =>
    simp only [Opening.run]
    split
    · exact .refl
    · next hread => exact warranted_report (.notAnInteger hopens hread)
  | unary =>
    rw [Opening.run_unary_snd]
    exact hadvance.trans (ho .unary p.advance)
  | group =>
    have h := hadvance.trans (ho .lowest p.advance)
    cases hx : operand .lowest p.advance with
    | mk x q =>
      rw [hx] at h
      cases x with
      | none =>
        rw [Opening.run_group_snd_of_none hx]
        exact h
      | some e =>
        have hclose : Warranted q (q.expect .closeParen).2 :=
          warranted_expect q Kind.noConfusion
        rw [Opening.run_group_snd_of_some hx]
        exact h.trans hclose

theorem warranted_joining {operand : Operand σ} (ho : WarrantedOn operand) (left : Expr)
    (b : Power) (j : Joining) (hjoins : p.grammar.joining p.current.kind = some j) :
    Warranted p (j.run operand left b p).2 := by
  cases j with
  | binary =>
    rw [Joining.run_binary_snd]
    exact (warranted_advance (.of_joining hjoins)).trans (ho b p.advance)

mutual

theorem warranted_expressionWithin (n : Nat) : WarrantedOn (expressionWithin (σ := σ) n) := by
  intro b p
  match n with
  | 0 =>
    rw [expressionWithin]
    exact warranted_report .tooDeep
  | n + 1 =>
    rw [expressionWithin]
    split
    · next hnone => exact warranted_report (.noOpening hnone)
    · next o hopens =>
      have h := warranted_opening (warranted_expressionWithin n) o hopens
      split
      · next left q hq =>
        rw [hq] at h
        exact h.trans (warranted_joinWithin n b left q)
      · next q hq => simpa [hq] using h

theorem warranted_joinWithin (n : Nat) (b : Power) (left : Expr) (p : Parser σ) :
    Warranted p (joinWithin n b left p).2 := by
  by_cases hstops : p.grammar.Stops b p.peek
  · rw [joinWithin_of_stops n hstops]
    exact .refl
  · cases hj : p.grammar.joining p.peek.kind with
    | none =>
      rw [joinWithin_of_joining n hj]
      exact .refl
    | some j =>
      match n with
      | 0 =>
        rw [joinWithin_zero hstops hj]
        exact warranted_report .tooDeep
      | n + 1 =>
        -- The operator joins where it is the next token, and again where it is the current one.
        have h := (warranted_advance (.of_joining_peek hj)).trans
          (warranted_joining (warranted_expressionWithin n) left p.peekPower j hj)
        rw [joinWithin_succ n hstops hj]
        split
        · next joined q hq =>
          rw [hq] at h
          exact h.trans (warranted_joinWithin n b joined q)
        · next q hq => simpa [hq] using h

end

theorem warranted_value (p : Parser σ) : Warranted p p.value.2 :=
  (warranted_expressionWithin p.levels .lowest p).trans (warranted_takeTerminator _)

/-! ## Statements -/

theorem Skips.warranted (h : Skips p q) : Warranted p q := by
  induction h with
  | here _ => exact .refl
  | next hopen _ ih => exact (warranted_advance (.of_open hopen)).trans ih

theorem Dispatch.warranted {s : Option Stmt} (h : Dispatch p s q) : Warranted p q := by
  have hname (hpeek : p.peek.kind = .identifier) : Warranted p p.advance :=
    warranted_advance (.of_peek hpeek Kind.noConfusion)
  have hmark (hpeek : p.peek.kind = .identifier) (hmark : p.advance.peek.kind = .assign) :
      Warranted p (p.move 2) := (hname hpeek).advance (.of_peek hmark Kind.noConfusion)
  cases h with
  | letNoName _ hno => exact warranted_report (.unexpected hno)
  | letNoMark _ hpeek hno => exact (hname hpeek).report (.unexpected hno)
  | letValue _ hpeek hassign =>
    have hvalue : Warranted (p.move 2) (p.move 3) :=
      warranted_advance (.of_current hassign Kind.noConfusion)
    exact ((hmark hpeek hassign).trans hvalue).trans (warranted_value _)
  | letSkip _ hpeek hassign _ hq => exact (hmark hpeek hassign).trans hq.warranted
  | returnValue hf => exact (warranted_advance (.of_form hf)).trans (warranted_value _)
  | returnSkip hf _ hq => exact (warranted_advance (.of_form hf)).trans hq.warranted
  | expr => exact warranted_value p

end Warranted

end Parser

/-! ## Whole runs -/

section Runs

variable {σ : Type} [FiniteSource σ]

theorem Parser.exists_causes_of_mem_statements {p : Parser σ} {e : Problem}
    (h : e ∈ p.statements.2.diagnostics.toList) :
    e ∈ p.diagnostics.toList ∨ ∃ n, (p.move n).Causes e := by
  fun_induction statements p with
  | case1 p _ => exact .inl h
  | case2 p _ s rest ih =>
    have hs : Warranted p s.2 := (dispatch_statement p).warranted
    rcases ih h with hbefore | ⟨n, hn⟩
    · exact hs.exists_causes hbefore
    · obtain ⟨m, hm⟩ := hs.leads
      exact .inr ⟨m + 1 + n, hn.of_reaches hm.advance⟩

/-- Every problem of a parse was caused at one of the states that the run has passed. -/
theorem exists_causes_of_mem {source : σ} {config : Config} {e : Problem}
    (h : e ∈ (parse source config).diagnostics.toList) :
    ∃ n, ((Parser.ofSource source config).move n).Causes e := by
  rcases Parser.exists_causes_of_mem_statements h with hnone | hcauses
  · cases hnone
  · exact hcauses

end Runs

end Frontend
