/-
# `Frontend.Proofs.Accounting` — every absence is reported once

What could not be read is missing from the answer: an expression that is none, a
statement that is dropped, a `let` or a `return` without the value that it was
to have.  Each of these is reported by exactly one problem, and nothing else is
reported.

So the problems of a whole run can be counted off against its statements.  The
run is its dispatches, the states at which a statement was parsed; every
dispatch begins at a token of its own that is not the end of input, so there are
never more problems than such tokens, and a run without problems has dropped
nothing.
-/
import Frontend.Proofs.Dispatch

namespace Frontend.Parser

variable {σ : Type}

/-! ## Faults -/

section Faults

variable {p q : Parser σ}

/-- Between two states one problem was added to the others if there was a fault, and
none if there was not. -/
structure Accounts (p q : Parser σ) (fault : Prop) : Prop where
  one : fault → ∃ e, q.diagnostics.toList = p.diagnostics.toList ++ [e]
  zero : ¬ fault → q.diagnostics = p.diagnostics

theorem Accounts.congr {fault fault' : Prop} (h : Accounts p q fault) (hf : fault' ↔ fault) :
    Accounts p q fault' :=
  ⟨fun hfault => h.one (hf.1 hfault), fun hfault => h.zero fun hfault' => hfault (hf.2 hfault')⟩

theorem Accounts.size_eq {fault : Prop} (h : Accounts p q fault) (hfault : fault) :
    q.diagnostics.size = p.diagnostics.size + 1 := by
  obtain ⟨e, he⟩ := h.one hfault
  have hlength := congrArg List.length he
  rwa [List.length_append, Diagnostics.length_toList, Diagnostics.length_toList] at hlength

/-- Where nothing was reported there was no fault. -/
theorem Accounts.not_of_size_eq {fault : Prop} (h : Accounts p q fault)
    (hsize : q.diagnostics.size = p.diagnostics.size) : ¬ fault := by
  intro hfault
  rw [h.size_eq hfault] at hsize
  exact Nat.succ_ne_self _ hsize

/-- A statement is without the value that it was to have.  A `let` always is to have
one where values are read, and a `return` is unless it ends at once. -/
def LacksValue (p : Parser σ) : Stmt → Bool
  | .letStmt _ _ none => p.config.readValues
  | .returnStmt _ none => p.config.readValues && !(p.peek.is .semicolon || p.peek.is .eof)
  | _ => false

/-- The statement at a state was dropped or is without its value. -/
def Faulty (p : Parser σ) (s : Option Stmt) : Prop :=
  s = none ∨ ∃ t ∈ s, p.LacksValue t = true

theorem faulty_some {s : Stmt} : p.Faulty (some s) ↔ p.LacksValue s = true := by
  simp [Faulty]

end Faults

/-! ## One call -/

section Calls

variable [Source σ] {p q : Parser σ}

theorem Accounts.of_move {n : Nat} {fault : Prop} (h : Accounts (p.move n) q fault) :
    Accounts p q fault where
  one := by simpa only [diagnostics_move] using h.one
  zero := by simpa only [diagnostics_move] using h.zero

theorem accounts_of_fails {fault : Prop} (h : Fails p q) (hf : fault) : Accounts p q fault where
  one _ := by
    obtain ⟨n, e, rfl⟩ := h
    exact ⟨e, toList_report_move p n e⟩
  zero hnot := absurd hf hnot

theorem accounts_of_move {fault : Prop} {n : Nat} (h : q = p.move n) (hf : ¬ fault) :
    Accounts p q fault where
  one hfault := absurd hfault hf
  zero _ := by rw [h, diagnostics_move]

theorem accounts_expression (p : Parser σ) (hg : p.grammar.Joins) (b : Power) :
    Accounts p (p.expression b).2 ((p.expression b).1 = none) := by
  have ho := outcome_expression b p hg
  cases hr : p.expression b with
  | mk e q =>
    rw [hr] at ho
    cases e with
    | some e =>
      obtain ⟨c, hc, -⟩ := ho
      exact accounts_of_move hc.eq_move (by simp)
    | none => exact accounts_of_fails ho rfl

theorem accounts_value (p : Parser σ) (hg : p.grammar.Joins) :
    Accounts p p.value.2 (p.value.1 = none) := by
  rcases outcome_value p hg with ⟨c, -, -, hv⟩ | ⟨q, hv, hq⟩
  · obtain ⟨k, hk⟩ := takeTerminator_move p c.width
    rw [hv]
    exact accounts_of_move hk (by simp)
  · rw [hv]
    exact accounts_of_fails hq rfl

/-- A statement of any form reports its fault, over whatever source. -/
theorem Dispatch.accounts {s : Option Stmt} (hg : p.grammar.Joins) (h : Dispatch p s q) :
    Accounts p q (p.Faulty s) := by
  cases h with
  | letNoName => exact accounts_of_fails ⟨0, _, rfl⟩ (.inl rfl)
  | letNoMark => exact accounts_of_fails ⟨1, _, rfl⟩ (.inl rfl)
  | letValue _ _ _ hreads =>
    refine (accounts_value (p.move 3) hg).of_move.congr (faulty_some.trans ?_)
    cases (p.move 3).value.1 <;> simp [LacksValue, hreads]
  | letSkip _ _ _ hreads hq =>
    obtain ⟨k, rfl⟩ := hq.exists_move
    refine accounts_of_move (move_move p 2 k) ?_
    simp [faulty_some, LacksValue, hreads]
  | returnValue _ hreads hopen =>
    have hvalue : Accounts p p.advance.value.2 (p.advance.value.1 = none) :=
      (accounts_value p.advance hg).of_move (n := 1)
    refine hvalue.congr (faulty_some.trans ?_)
    cases p.advance.value.1 with
    | none =>
      refine iff_of_true ?_ rfl
      show (p.config.readValues && !p.advance.atTerminator) = true
      rw [hreads, hopen]
      rfl
    | some e => simp [LacksValue]
  | returnSkip _ hbare hq =>
    obtain ⟨k, rfl⟩ := hq.exists_move
    refine accounts_of_move (n := k + 1) rfl ?_
    rw [faulty_some]
    show ¬ (p.config.readValues && !p.advance.atTerminator) = true
    rcases hbare with hbare | hbare <;> simp [hbare]
  | expr =>
    refine (accounts_value p hg).congr ?_
    cases p.value.1 <;> simp [Faulty, LacksValue]

end Calls

/-! ## A whole run -/

section Runs

variable [FiniteSource σ]

/-- The states at which a run parses a statement, in order. -/
def dispatches (p : Parser σ) : List (Parser σ) :=
  if p.current.kind = .eof then [] else p :: p.statement.2.advance.dispatches
termination_by p.remaining
decreasing_by exact (leads_statement p).remaining_advance_lt ‹_›

/-- The statement at a state could not be read. -/
def drops (p : Parser σ) : Bool :=
  p.statement.1.isNone

/-- The statement at a state was read without the value that it was to have. -/
def losesValue (p : Parser σ) : Bool :=
  p.statement.1.any p.LacksValue

variable {p : Parser σ}

theorem statements_eq_filterMap (p : Parser σ) :
    p.statements.1 = p.dispatches.filterMap fun q => q.statement.1 := by
  fun_induction dispatches p with
  | case1 p h => rw [statements_of_eof h, List.filterMap_nil]
  | case2 p h ih =>
    rw [statements_of_ne_eof h, List.filterMap_cons, ← ih]
    cases p.statement.1 <;> rfl

/-- The step of the count. -/
theorem size_statement (hg : p.grammar.Joins) :
    p.statement.2.diagnostics.size =
      p.diagnostics.size + (p.drops.toNat + p.losesValue.toNat) := by
  have h := (dispatch_statement p).accounts hg
  rw [drops, losesValue]
  cases hs : p.statement.1 with
  | none => exact h.size_eq (.inl hs)
  | some s =>
    rw [hs] at h
    rw [Option.any_some]
    cases hl : p.LacksValue s with
    | true => exact h.size_eq (faulty_some.2 hl)
    | false =>
      rw [h.zero (by simp [faulty_some, hl])]
      rfl

theorem size_statements (hg : p.grammar.Joins) :
    p.statements.2.diagnostics.size =
      p.diagnostics.size + (p.dispatches.countP drops + p.dispatches.countP losesValue) := by
  fun_induction dispatches p with
  | case1 p h =>
    rw [statements_of_eof h]
    rfl
  | case2 p h ih =>
    obtain ⟨n, hn⟩ := leads_statement p
    have hrest := ih (hn.grammar_eq ▸ hg)
    have hfirst : p.statement.2.advance.diagnostics.size = _ := size_statement hg
    have hone (b : Bool) : (if b = true then 1 else 0) = b.toNat := by cases b <;> rfl
    rw [statements_of_ne_eof h, List.countP_cons, List.countP_cons, hone, hone, hrest, hfirst]
    omega

/-- Every dispatch has a token of its own. -/
theorem length_dispatches_le {ts : List Token} (h : p.HoldsKinds ts) :
    p.dispatches.length ≤ ts.countP fun t => t.kind ≠ .eof := by
  fun_induction dispatches p generalizing ts with
  | case1 p _ => exact Nat.zero_le _
  | case2 p hne ih =>
    obtain ⟨n, hn⟩ := leads_statement p
    cases ts with
    | nil => exact absurd (h 0) hne
    | cons t ts =>
      have hcurrent : t.kind ≠ .eof := fun ht => hne ((h 0).trans ht)
      have hrest : p.statement.2.advance.HoldsKinds (ts.drop n) := hn.advance.holdsKinds_drop h
      calc (p :: p.statement.2.advance.dispatches).length
          ≤ (ts.drop n).countP (fun t => t.kind ≠ .eof) + 1 := Nat.succ_le_succ (ih hrest)
        _ ≤ ts.countP (fun t => t.kind ≠ .eof) + 1 :=
          Nat.succ_le_succ (List.drop_sublist n ts).countP_le
        _ = (t :: ts).countP fun t => t.kind ≠ .eof := by
          rw [List.countP_cons_of_pos (by simpa using hcurrent)]

/-- A dropped statement lacks nothing else. -/
theorem countP_add_countP_le (ps : List (Parser σ)) :
    ps.countP drops + ps.countP losesValue ≤ ps.length := by
  rw [List.length_eq_countP_add_countP drops]
  refine Nat.add_le_add_left (List.countP_mono_left fun q _ hq => ?_) _
  rw [losesValue] at hq
  rw [drops]
  cases hs : q.statement.1 with
  | none =>
    rw [hs] at hq
    cases hq
  | some s => simp

end Runs

/-! ## The count -/

/-- **Accounting.**  With the standard table, whatever the state and the source: an
expression that is none is reported by one problem, and one that is read by none; a
statement is reported by one problem if it was dropped or is without the value it
was to have, and otherwise by none.

So a run over a finite source has as many problems as it has dispatches that were
dropped and statements without the value they were to have; it has no more than
there are tokens that are not the end of input; and without problems it has dropped
nothing. -/
theorem problems_accounted :
    (∀ {σ : Type} [Source σ] (p : Parser σ), p.grammar = .standard →
      (∀ b, Accounts p (p.expression b).2 ((p.expression b).1 = none)) ∧
        ∀ s q, Dispatch p s q → Accounts p q (p.Faulty s)) ∧
    (∀ {σ : Type} [FiniteSource σ] (p : Parser σ), p.grammar = .standard →
      Accounts p p.statement.2 (p.Faulty p.statement.1)) ∧
    ∀ {σ : Type} [FiniteSource σ] (source : σ) (config : Config),
      let run := parse source config
      let ps := (ofSource source config).dispatches
      run.program.statements = ps.filterMap (fun q => q.statement.1) ∧
        run.diagnostics.size = ps.countP drops + ps.countP losesValue ∧
        run.diagnostics.size ≤ (FiniteSource.tokens source).countP (fun t => t.kind ≠ .eof) ∧
        (run.diagnostics.isEmpty = true → ∀ q ∈ ps, q.statement.1 ≠ none) := by
  refine ⟨fun p hp => ?_, fun p hp => ?_, fun source config => ?_⟩
  · have hg : p.grammar.Joins := hp ▸ Grammar.joins_standard
    exact ⟨accounts_expression p hg, fun s q h => h.accounts hg⟩
  · exact (dispatch_statement p).accounts (hp ▸ Grammar.joins_standard)
  · intro run ps
    have hsize : run.diagnostics.size = ps.countP drops + ps.countP losesValue := by
      have hcount := size_statements (p := ofSource source config) Grammar.joins_standard
      rwa [show (ofSource source config).diagnostics.size = 0 from rfl, Nat.zero_add] at hcount
    refine ⟨statements_eq_filterMap _, hsize, ?_, ?_⟩
    · calc run.diagnostics.size
          ≤ ps.length := hsize ▸ countP_add_countP_le ps
        _ ≤ _ := length_dispatches_le (holdsKinds_ofSource source config)
    · intro hempty q hq hnone
      rw [Diagnostics.isEmpty_iff, hsize, Nat.add_eq_zero_iff, List.countP_eq_zero] at hempty
      exact hempty.1 q hq (by rw [drops, hnone]; rfl)

/-- `let x = ; ) return !`, with values read, and behind it ends of input that have a
text: the values of the `let` and of the `return` are missing and what begins with the
parenthesis is dropped.  A name by itself is read, and nothing is dropped. -/
theorem problems_accounted_missing :
    let source := Sequence.closed [⟨.kwLet, "let"⟩, ⟨.identifier, "x"⟩, ⟨.assign, "="⟩,
      ⟨.semicolon, ";"⟩, ⟨.closeParen, ")"⟩, ⟨.kwReturn, "return"⟩, ⟨.bang, "!"⟩]
      ⟨.eof, "<eof>"⟩ rfl
    let p := ofSource source ⟨true, 256⟩
    p.grammar = .standard ∧ (p.expression .lowest).1 = none ∧
      Accounts p (p.expression .lowest).2 ((p.expression .lowest).1 = none) ∧
      Dispatch p p.statement.1 p.statement.2 ∧
      p.LacksValue (.letStmt ⟨.kwLet, "let"⟩ (.ofToken ⟨.identifier, "x"⟩) none) = true ∧
      Accounts p p.statement.2 (p.Faulty p.statement.1) ∧
      p.dispatches.countP drops = 1 ∧ p.dispatches.countP losesValue = 2 ∧
      (parse source ⟨true, 256⟩).diagnostics.size = 1 + 2 ∧
      let name := Tape.mk [⟨.identifier, "x"⟩]
      (parse name ⟨true, 256⟩).diagnostics.isEmpty = true ∧
        ∀ q ∈ (ofSource name ⟨true, 256⟩).dispatches, q.statement.1 ≠ none := by
  intro source p
  have hdrops : p.dispatches.countP drops = 1 := by decide +kernel
  have hloses : p.dispatches.countP losesValue = 2 := by decide +kernel
  obtain ⟨-, hsize, -⟩ := problems_accounted.2.2 source ⟨true, 256⟩
  have hstatement := dispatch_statement p
  refine ⟨rfl, by decide +kernel, (problems_accounted.1 p rfl).1 .lowest, hstatement, rfl,
    (problems_accounted.1 p rfl).2 _ _ hstatement, hdrops, hloses, hdrops ▸ hloses ▸ hsize, ?_⟩
  intro name
  have hname : (parse name ⟨true, 256⟩).diagnostics.isEmpty = true := by decide +kernel
  exact ⟨hname, (problems_accounted.2.2 name ⟨true, 256⟩).2.2.2 hname⟩

end Frontend.Parser
