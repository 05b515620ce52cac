/-
# `Frontend.Proofs.Resumption` — a terminator parts two programs

Two lists of tokens are put together, and the first ends with a terminator.  Then
the statements of the whole are those of the first and those of the second, and
so are the problems: whatever was wrong before the terminator has no effect
behind it.

There is one exception.  Where an expression could not be read and the parser
stands at the last token that it looked at, a terminator behind that token is
taken.  If that token is itself the terminator of the first list, and the second
begins with another, the second loses it.  This needs a problem in the first
list.

The proof follows two runs.  Two states are alike if they have the same settings
and the same tokens before them, up to a terminator or for ever; the tokens that
they share are told by a predicate on their places, which goes on behind every
token but a terminator.  From alike states every parsing function gives the same
answer and stops the same number of tokens on.  What was complained of before is
not part of being alike, and so the run over the second list is the run of a new
parser.
-/
import Frontend.Proofs.Sentence

namespace Frontend

namespace Parser

variable {σ : Type}

section Alike

variable [Source σ]

/-- Two states with the same settings and, at the places that they share, the same
tokens before them. -/
structure Alike (common : Nat → Prop) (p q : Parser σ) : Prop where
  config_eq : q.config = p.config
  depth_eq : q.depth = p.depth
  left_grammar : p.grammar = .standard
  right_grammar : q.grammar = .standard
  zero : common 0
  succ : ∀ n, common n → (p.move n).current.kind ≠ .semicolon → common (n + 1)
  current_eq : ∀ n, common n → (q.move n).current = (p.move n).current

namespace Alike

variable {common : Nat → Prop} {p q : Parser σ} {n : Nat}

theorem move (h : Alike common p q) (hn : common n) :
    Alike (fun i => common (n + i)) (p.move n) (q.move n) where
  config_eq := by rw [config_move, config_move, h.config_eq]
  depth_eq := by rw [depth_move, depth_move, h.depth_eq]
  left_grammar := by rw [grammar_move, h.left_grammar]
  right_grammar := by rw [grammar_move, h.right_grammar]
  zero := hn
  succ := by
    intro i hi hne
    rw [move_move] at hne
    exact h.succ (n + i) hi hne
  current_eq := by
    intro i hi
    rw [move_move, move_move]
    exact h.current_eq (n + i) hi

theorem congr {common' : Nat → Prop} (h : Alike common p q) (hc : ∀ n, common' n ↔ common n) :
    Alike common' p q := by
  obtain rfl : common' = common := funext fun n => propext (hc n)
  exact h

theorem first_eq (h : Alike common p q) : q.current = p.current :=
  h.current_eq 0 h.zero

theorem atTerminator_eq (h : Alike common p q) (hn : common n) :
    (q.move n).atTerminator = (p.move n).atTerminator := by
  rw [atTerminator, atTerminator, h.current_eq n hn]

theorem levels_eq (h : Alike common p q) : q.levels = p.levels := by
  rw [levels, levels, h.config_eq, h.depth_eq]

theorem peek_eq (h : Alike common p q) (hn : common (n + 1)) :
    (q.move n).peek = (p.move n).peek := by
  rw [peek_move, peek_move]
  exact h.current_eq (n + 1) hn

/-- Behind a token that is no terminator the next one is shared. -/
theorem next (h : Alike common p q) (hn : common n) {k : Kind} (hk : (p.move n).current.kind = k)
    (hne : k ≠ .semicolon) : common (n + 1) :=
  h.succ n hn fun hsemi => hne (hk.symm.trans hsemi)

end Alike

/-! ## Expressions -/

/-- Two runs of an expression parser come to the same, the same number of tokens on.
An expression that is read leaves a token that they share. -/
inductive Agrees (common : Nat → Prop) (p q : Parser σ) :
    Option Expr × Parser σ → Option Expr × Parser σ → Prop where
  | read {n : Nat} (e : Expr) (hn : common n) (hnext : common (n + 1)) :
      Agrees common p q (some e, p.move n) (some e, q.move n)
  | failed {n : Nat} (x : Problem) (hn : common n) :
      Agrees common p q (none, (p.move n).report x) (none, (q.move n).report x)

section Expressions

variable {common : Nat → Prop} {p q : Parser σ}

theorem Agrees.of_move {n : Nat} {r r' : Option Expr × Parser σ}
    (h : Agrees (fun i => common (n + i)) (p.move n) (q.move n) r r') :
    Agrees common p q r r' := by
  cases h with
  | read e hn hnext =>
    rw [move_move, move_move]
    exact .read e hn hnext
  | failed x hn =>
    rw [move_move, move_move]
    exact .failed x hn

/-- What is asked of the operands on the way down. -/
def AgreesOn (operand : Operand σ) : Prop :=
  ∀ b common p q, Alike common p q → Agrees common p q (operand b p) (operand b q)

theorem agrees_opening {operand : Operand σ} (ho : AgreesOn operand) (o : Opening)
    (h : Alike common p q) (hk : Grammar.standard.opening p.current.kind = some o) :
    Agrees common p q (o.run operand p) (o.run operand q) := by
  have hone : common 1 := h.succ 0 h.zero (Grammar.opening_standard_ne hk).1
  have hcurrent := h.first_eq
  cases o with
  | ident =>
    simp only [Opening.run, hcurrent]
    exact .read (n := 0) _ h.zero hone
  | integer =>
    simp only [Opening.run, hcurrent]
    cases Numeral.read? p.current.text with
    | some v => exact .read (n := 0) _ h.zero hone
    | none => exact .failed (n := 0) _ h.zero
  | unary =>
    have hx : Agrees common p q (operand .unary p.advance) (operand .unary q.advance) :=
      (ho .unary _ _ _ (h.move hone)).of_move
    simp only [Opening.run, hcurrent]
    generalize operand .unary p.advance = r at hx ⊢
    generalize operand .unary q.advance = r' at hx ⊢
    cases hx with
    | read e hn hnext => exact .read _ hn hnext
    | failed x hn => exact .failed x hn
  | group =>
    have hx : Agrees common p q (operand .lowest p.advance) (operand .lowest q.advance) :=
      (ho .lowest _ _ _ (h.move hone)).of_move
    simp only [Opening.run]
    generalize operand .lowest p.advance = r at hx ⊢
    generalize operand .lowest q.advance = r' at hx ⊢
    cases hx with
    | @read n e hn hnext =>
      have hpeek := h.peek_eq hnext
      by_cases hclose : (p.move n).peek.kind = .closeParen
      · have hbehind : common (n + 2) := by
          refine h.succ (n + 1) hnext ?_
          rw [← peek_move, hclose]
          decide
        simp only [expect_of_eq hclose, expect_of_eq (hpeek ▸ hclose), advance_move]
        exact .read e hnext hbehind
      · simp only [expect_of_ne hclose, expect_of_ne (hpeek ▸ hclose), hpeek]
        exact .failed _ hn
    | failed x hn => exact .failed x hn

theorem agrees_joining {operand : Operand σ} (ho : AgreesOn operand) (e : Expr) (b : Power)
    (j : Joining) (h : Alike common p q) (hone : common 1) :
    Agrees common p q (j.run operand e b p) (j.run operand e b q) := by
  have hcurrent := h.first_eq
  cases j with
  | binary =>
    have hx : Agrees common p q (operand b p.advance) (operand b q.advance) :=
      (ho b _ _ _ (h.move hone)).of_move
    simp only [Joining.run, hcurrent]
    generalize operand b p.advance = r at hx ⊢
    generalize operand b q.advance = r' at hx ⊢
    cases hx with
    | read e hn hnext => exact .read _ hn hnext
    | failed x hn => exact .failed x hn

mutual

theorem agrees_expressionWithin (n : Nat) : AgreesOn (expressionWithin (σ := σ) n) := by
  intro b common p q h
  have hcurrent := h.first_eq
  match n with
  | 0 =>
    rw [expressionWithin, expressionWithin, h.config_eq]
    exact .failed (n := 0) _ h.zero
  | n + 1 =>
    rw [expressionWithin, expressionWithin, h.left_grammar, h.right_grammar, hcurrent]
    cases ho : Grammar.standard.opening p.current.kind with
    | none => exact .failed (n := 0) _ h.zero
    | some o =>
      have hopening := agrees_opening (agrees_expressionWithin n) o h ho
      dsimp only
      generalize o.run (expressionWithin n) p = r at hopening ⊢
      generalize o.run (expressionWithin n) q = r' at hopening ⊢
      cases hopening with
      | read e hn hnext => exact (agrees_joinWithin n b e (h.move hn) hnext).of_move
      | failed x hn => exact .failed x hn

/-- The loop sees the token behind the expression, which therefore has to be shared. -/
theorem agrees_joinWithin (n : Nat) (b : Power) (e : Expr) {common : Nat → Prop} {p q : Parser σ}
    (h : Alike common p q) (hone : common 1) :
    Agrees common p q (joinWithin n b e p) (joinWithin n b e q) := by
  have hp := h.left_grammar
  have hq := h.right_grammar
  have hpeek : q.peek = p.peek := h.peek_eq (n := 0) hone
  by_cases hstops : Grammar.standard.Stops b p.peek
  · rw [joinWithin_of_stops n (hp ▸ hstops), joinWithin_of_stops n (hq ▸ hpeek ▸ hstops)]
    exact .read (n := 0) e h.zero hone
  · obtain ⟨hsemi, hpower⟩ := not_or.1 hstops
    cases hj : Grammar.standard.joining p.peek.kind with
    | none => exact absurd (Grammar.joins_standard _ hj ▸ Power.lowest_le b) hpower
    | some j =>
      match n with
      | 0 =>
        rw [joinWithin_zero (hp ▸ hstops) (hp ▸ hj),
          joinWithin_zero (hq ▸ hpeek ▸ hstops) (hq ▸ hpeek ▸ hj), h.config_eq]
        exact .failed (n := 0) _ h.zero
      | n + 1 =>
        have hpower : q.peekPower = p.peekPower := by rw [peekPower, peekPower, hp, hq, hpeek]
        have hjoined : Agrees common p q (j.run (expressionWithin n) e p.peekPower p.advance)
            (j.run (expressionWithin n) e p.peekPower q.advance) :=
          (agrees_joining (agrees_expressionWithin n) e _ j (h.move hone)
            (h.succ 1 hone hsemi)).of_move
        rw [joinWithin_succ n (hp ▸ hstops) (hp ▸ hj),
          joinWithin_succ n (hq ▸ hpeek ▸ hstops) (hq ▸ hpeek ▸ hj), hpower]
        generalize j.run (expressionWithin n) e p.peekPower p.advance = r at hjoined ⊢
        generalize j.run (expressionWithin n) e p.peekPower q.advance = r' at hjoined ⊢
        cases hjoined with
        | read e hn hnext => exact (agrees_joinWithin n b e (h.move hn) hnext).of_move
        | failed x hn => exact .failed x hn

end

theorem agrees_expression (b : Power) (h : Alike common p q) :
    Agrees common p q (p.expression b) (q.expression b) := by
  rw [expression, expression, h.levels_eq]
  exact agrees_expressionWithin p.levels b common p q h

end Expressions

/-! ## Statements -/

/-- Two answers are the same, and nothing or the same problem was reported with them,
the same number of tokens on. -/
inductive Same (common : Nat → Prop) (p q : Parser σ) {α : Type} :
    α × Parser σ → α × Parser σ → Prop where
  | quiet {n : Nat} (a : α) (hn : common n) : Same common p q (a, p.move n) (a, q.move n)
  | complaint {n : Nat} (a : α) (x : Problem) (hn : common n) :
      Same common p q (a, (p.move n).report x) (a, (q.move n).report x)

/-- No terminator stands right behind the tokens that two states share. -/
def Parted (common : Nat → Prop) (p q : Parser σ) : Prop :=
  ∀ n, common n → ¬ common (n + 1) →
    (p.move n).peek.kind ≠ .semicolon ∧ (q.move n).peek.kind ≠ .semicolon

section Statements

variable {common : Nat → Prop} {p q : Parser σ}

theorem Parted.move (h : Parted common p q) (n : Nat) :
    Parted (fun i => common (n + i)) (p.move n) (q.move n) := by
  intro i hi hnot
  rw [move_move, move_move]
  exact h (n + i) hi hnot

section Same

variable {α β : Type} {r r' : α × Parser σ}

theorem Same.of_move {n : Nat} (h : Same (fun i => common (n + i)) (p.move n) (q.move n) r r') :
    Same common p q r r' := by
  cases h with
  | quiet a hn =>
    rw [move_move, move_move]
    exact .quiet a hn
  | complaint a x hn =>
    rw [move_move, move_move]
    exact .complaint a x hn

theorem Same.map (h : Same common p q r r') (f : α → β) :
    Same common p q (f r.1, r.2) (f r'.1, r'.2) := by
  cases h with
  | quiet a hn => exact .quiet (f a) hn
  | complaint a x hn => exact .complaint (f a) x hn

theorem Same.fst_eq (h : Same common p q r r') : r'.1 = r.1 := by
  cases h <;> rfl

end Same

/-- Behind a value that could not be read the parser looks one token further, and so
that token is shared or no terminator. -/
theorem same_value (h : Alike common p q) (hend : Parted common p q ∨ p.value.1 ≠ none) :
    Same common p q p.value q.value := by
  have hx := agrees_expression .lowest h
  simp only [value] at hend ⊢
  generalize p.expression .lowest = r at hx hend ⊢
  generalize q.expression .lowest = r' at hx ⊢
  cases hx with
  | @read n e hn hnext =>
    dsimp only
    rw [takeTerminator, takeTerminator, h.peek_eq hnext]
    split
    · rw [advance_move, advance_move]
      exact .quiet _ hnext
    · exact .quiet _ hn
  | @failed n x hn =>
    have hparted : Parted common p q := hend.resolve_right (by simp)
    dsimp only
    rw [takeTerminator_report, takeTerminator_report, takeTerminator, takeTerminator]
    by_cases hnext : common (n + 1)
    · rw [h.peek_eq hnext]
      split
      · rw [advance_move, advance_move]
        exact .complaint _ x hnext
      · exact .complaint _ x hn
    · obtain ⟨hp, hq⟩ := hparted n hn hnext
      rw [if_neg hp, if_neg hq]
      exact .complaint _ x hn

theorem Alike.skips {r : Parser σ} (hs : Skips p r) :
    ∀ common q, Alike common p q → ∃ n, common n ∧ r = p.move n ∧ Skips q (q.move n) := by
  induction hs with
  | @here p hend =>
    exact fun common q h => ⟨0, h.zero, rfl, .here ((h.atTerminator_eq h.zero).trans hend)⟩
  | @next p r hopen _ ih =>
    intro common q h
    have hne : p.current.kind ≠ .semicolon := by
      rintro hsemi
      simp [atTerminator, Token.is, hsemi] at hopen
    obtain ⟨n, hn, rfl, hskips⟩ := ih _ _ (h.move (h.succ 0 h.zero hne))
    rw [move_move] at hskips
    exact ⟨1 + n, hn, move_move p 1 n, .next ((h.atTerminator_eq h.zero).trans hopen) hskips⟩

/-- A value that gave no cause for complaint was read. -/
theorem value_ne_none {n : Nat} (hg : p.grammar = .standard)
    (hclean : (p.move n).value.2.diagnostics.size = p.diagnostics.size) :
    (p.move n).value.1 ≠ none := by
  have hjoins : (p.move n).grammar.Joins := by
    rw [grammar_move, hg]
    exact Grammar.joins_standard
  refine (accounts_value (p.move n) hjoins).not_of_size_eq ?_
  rw [hclean, diagnostics_move]

/-- Statements that are made in the same way of two values that are the same. -/
theorem Same.exists_dispatch {v v' : Option Expr × Parser σ} (hv : Same common p q v v')
    (make : Option Expr → Option Stmt) (hd : Dispatch q (make v'.1) v'.2) :
    ∃ r', Dispatch q (make v.1) r' ∧ Same common p q (make v.1, v.2) (make v.1, r') := by
  have hs := hv.map make
  rw [hv.fst_eq] at hd hs
  exact ⟨v'.2, hd, hs⟩

/-- No terminator is among the words of the forms or the names, so what stands behind
them is shared. -/
theorem Alike.behind_letForm (h : Alike common p q)
    (hf : p.grammar.form p.current.kind = some .letForm) : common 1 ∧ q.peek = p.peek := by
  rw [h.left_grammar] at hf
  have hone : common 1 := h.next h.zero (Grammar.form_standard_eq_some.1 hf) (by decide)
  exact ⟨hone, h.peek_eq (n := 0) hone⟩

theorem Alike.behind_name (h : Alike common p q)
    (hf : p.grammar.form p.current.kind = some .letForm) (hname : p.peek.kind = .identifier) :
    common 2 ∧ q.advance.peek = p.advance.peek := by
  have htwo : common 2 := h.next (h.behind_letForm hf).1 hname (by decide)
  exact ⟨htwo, h.peek_eq (n := 1) htwo⟩

theorem Alike.behind_returnForm (h : Alike common p q)
    (hf : p.grammar.form p.current.kind = some .returnForm) :
    common 1 ∧ q.advance.atTerminator = p.advance.atTerminator := by
  rw [h.left_grammar] at hf
  have hone : common 1 := h.next h.zero (Grammar.form_standard_eq_some.2 hf) (by decide)
  exact ⟨hone, h.atTerminator_eq (n := 1) hone⟩

/-- The step of two runs: from alike states a statement comes to the same. -/
theorem same_dispatch {s : Option Stmt} {r : Parser σ} (h : Alike common p q)
    (hd : Dispatch p s r)
    (hend : Parted common p q ∨ r.diagnostics.size = p.diagnostics.size) :
    ∃ r', Dispatch q s r' ∧ Same common p q (s, r) (s, r') := by
  have hp := h.left_grammar
  have hcurrent := h.first_eq
  have hform : q.grammar.form q.current.kind = p.grammar.form p.current.kind := by
    rw [hp, h.right_grammar, hcurrent]
  have hreads' : q.config.readValues = p.config.readValues := by rw [h.config_eq]
  cases hd with
  | letNoName hf hname =>
    obtain ⟨-, hpeek⟩ := h.behind_letForm hf
    refine ⟨_, .letNoName (hform.trans hf) (hpeek ▸ hname), ?_⟩
    rw [hpeek]
    exact .complaint (n := 0) none _ h.zero
  | letNoMark hf hname hmark =>
    obtain ⟨hone, hpeek⟩ := h.behind_letForm hf
    obtain ⟨-, hpeek'⟩ := h.behind_name hf hname
    refine ⟨_, .letNoMark (hform.trans hf) (hpeek ▸ hname) (hpeek' ▸ hmark), ?_⟩
    rw [hpeek']
    exact .complaint (n := 1) none _ hone
  | letValue hf hname hmark hreads =>
    obtain ⟨-, hpeek⟩ := h.behind_letForm hf
    obtain ⟨htwo, hpeek'⟩ := h.behind_name hf hname
    have hthree := h.next htwo hmark (by decide)
    have hv := same_value (h.move hthree) (hend.imp (·.move 3) (value_ne_none hp))
    have hd := Dispatch.letValue (hform.trans hf) (hpeek ▸ hname) (hpeek' ▸ hmark)
      (hreads'.trans hreads)
    rw [hcurrent, hpeek] at hd
    exact hv.of_move.exists_dispatch (fun v => some (.letStmt p.current (.ofToken p.peek) v)) hd
  | letSkip hf hname hmark hreads hskips =>
    obtain ⟨-, hpeek⟩ := h.behind_letForm hf
    obtain ⟨htwo, hpeek'⟩ := h.behind_name hf hname
    obtain ⟨n, hn, rfl, hskips'⟩ := Alike.skips hskips _ _ (h.move htwo)
    have hd := Dispatch.letSkip (hform.trans hf) (hpeek ▸ hname) (hpeek' ▸ hmark)
      (hreads'.trans hreads) hskips'
    rw [hcurrent, hpeek] at hd
    exact ⟨_, hd, .of_move (.quiet _ hn)⟩
  | returnValue hf hreads hopen =>
    obtain ⟨hone, hterminator⟩ := h.behind_returnForm hf
    have hv := same_value (h.move hone) (hend.imp (·.move 1) (value_ne_none hp))
    have hd := Dispatch.returnValue (hform.trans hf) (hreads'.trans hreads)
      (hterminator.trans hopen)
    rw [hcurrent] at hd
    exact hv.of_move.exists_dispatch (fun v => some (.returnStmt p.current v)) hd
  | returnSkip hf hbare hskips =>
    obtain ⟨hone, hterminator⟩ := h.behind_returnForm hf
    obtain ⟨n, hn, rfl, hskips'⟩ := Alike.skips hskips _ _ (h.move hone)
    have hd := Dispatch.returnSkip (hform.trans hf) (hbare.imp hreads'.trans hterminator.trans)
      hskips'
    rw [hcurrent] at hd
    have hs : Same (fun i => common (1 + i)) (p.move 1) (q.move 1)
        (some (Stmt.returnStmt p.current none), (p.move 1).move n)
        (some (Stmt.returnStmt p.current none), (q.move 1).move n) := .quiet _ hn
    exact ⟨_, hd, hs.of_move⟩
  | expr hlet hreturn =>
    have hv := same_value h (hend.imp id (value_ne_none (n := 0) hp))
    have hd := Dispatch.expr (hform ▸ hlet) (hform ▸ hreturn)
    rw [hcurrent] at hd
    exact hv.exists_dispatch (·.map (.exprStmt p.current)) hd

end Statements

end Alike

/-! ## Whole runs -/

/-- These problems were reported from one state to another. -/
def Logs (p q : Parser σ) (xs : List Problem) : Prop :=
  q.diagnostics.toList = p.diagnostics.toList ++ xs

theorem Logs.refl (p : Parser σ) : Logs p p [] :=
  (List.append_nil _).symm

theorem Logs.trans {p q r : Parser σ} {xs ys : List Problem} (h : Logs p q xs)
    (h' : Logs q r ys) : Logs p r (xs ++ ys) := by
  rw [Logs, h', h, List.append_assoc]

section Reaches

variable [Source σ] {common : Nat → Prop} {p q p' q' : Parser σ}

/-- Problems reported on the way do not make states unlike. -/
theorem Alike.of_reaches {m n : Nat} (h : Alike common (p.move m) (q.move n))
    (hp : Reaches p m p') (hq : Reaches q n q') : Alike common p' q' where
  config_eq := by rw [hp.config_eq, hq.config_eq, ← config_move p m, ← h.config_eq, config_move]
  depth_eq := by rw [hp.depth_eq, hq.depth_eq, ← depth_move p m, ← h.depth_eq, depth_move]
  left_grammar := by rw [hp.grammar_eq, ← grammar_move p m, h.left_grammar]
  right_grammar := by rw [hq.grammar_eq, ← grammar_move q n, h.right_grammar]
  zero := h.zero
  succ := by
    intro i hi hne
    rw [hp.current_move, ← move_move] at hne
    exact h.succ i hi hne
  current_eq := by
    intro i hi
    rw [hp.current_move, hq.current_move, ← move_move, ← move_move]
    exact h.current_eq i hi

theorem Same.exists_reaches {α : Type} {r r' : α × Parser σ} (h : Same common p q r r') :
    ∃ n xs, common n ∧ Reaches p n r.2 ∧ Reaches q n r'.2 ∧ Logs p r.2 xs ∧ Logs q r'.2 xs := by
  cases h with
  | @quiet n a hn =>
    refine ⟨n, [], hn, reaches_move p n, reaches_move q n, ?_, ?_⟩ <;>
      simp only [Logs, diagnostics_move, List.append_nil]
  | @complaint n a x hn =>
    exact ⟨n, [x], hn, (reaches_move p n).report x, (reaches_move q n).report x,
      toList_report_move p n x, toList_report_move q n x⟩

/-- The first state holds one list, which ends at the place `n`.  The second has the
same tokens up to there, and behind them those that the third has. -/
structure Seam (n : Nat) (p q r : Parser σ) : Prop where
  alike : Alike (· ≤ n) p q
  opened : ∀ i ≤ n, (p.move i).current.kind ≠ .eof
  ended : (p.move (n + 1)).current.kind = .eof
  behind : Alike (fun _ => True) r (q.move (n + 1))

namespace Seam

variable {n m k : Nat} {r : Parser σ}

theorem parted (h : Seam n p q r) (hne : (q.move (n + 1)).current.kind ≠ .semicolon) :
    Parted (· ≤ n) p q := by
  intro i hi hnot
  obtain rfl : i = n := Nat.le_antisymm hi (Nat.lt_succ_iff.1 (Nat.not_le.1 hnot))
  rw [peek_move, peek_move, h.ended]
  exact ⟨by decide, hne⟩

theorem of_reaches (h : Seam (k + m) p q r) (hp : Reaches p k p') (hq : Reaches q k q') :
    Seam m p' q' r where
  alike := by
    refine ((h.alike.move (Nat.le_add_right k m)).of_reaches hp hq).congr fun i => ?_
    exact Nat.add_le_add_iff_left.symm
  opened := by
    intro i hi
    rw [hp.current_move]
    exact h.opened _ (Nat.add_le_add_left hi k)
  ended := by
    rw [hp.current_move]
    exact h.ended
  behind := Alike.of_reaches (m := 0) h.behind .refl (hq.trans (reaches_move q' (m + 1)))

end Seam

end Reaches

section Runs

variable [FiniteSource σ] {common : Nat → Prop} {p q : Parser σ}

theorem Alike.statement (h : Alike common p q)
    (hend : Parted common p q ∨ p.statement.2.diagnostics.size = p.diagnostics.size) :
    q.statement.1 = p.statement.1 ∧
      ∃ n xs, common n ∧ Reaches p n p.statement.2 ∧ Reaches q n q.statement.2 ∧
        Logs p p.statement.2 xs ∧ Logs q q.statement.2 xs := by
  obtain ⟨r', hd, hs⟩ := same_dispatch h (dispatch_statement p) hend
  rw [hd.statement_eq]
  exact ⟨rfl, hs.exists_reaches⟩

/-- Two runs that share all their tokens come to the same. -/
theorem statements_of_alike (p : Parser σ) :
    ∀ q, Alike (fun _ => True) p q →
      q.statements.1 = p.statements.1 ∧
        ∃ xs, Logs p p.statements.2 xs ∧ Logs q q.statements.2 xs := by
  fun_induction statements p with
  | case1 p hend =>
    intro q h
    have hcurrent := h.first_eq
    rw [statements_of_eof (hcurrent ▸ hend)]
    exact ⟨rfl, [], .refl p, .refl q⟩
  | case2 p hne s rest ih =>
    intro q h
    have hcurrent := h.first_eq
    obtain ⟨hfirst, n, xs, -, hp, hq, hxs, hxs'⟩ :=
      h.statement (.inl fun _ _ hnot => absurd trivial hnot)
    have hnext : Alike (fun _ => True) (p.move (n + 1)) (q.move (n + 1)) := h.move trivial
    obtain ⟨hlist, ys, hys, hys'⟩ := ih _ (hnext.of_reaches hp.advance hq.advance)
    rw [statements_of_ne_eof (hcurrent ▸ hne), hfirst, hlist]
    exact ⟨rfl, xs ++ ys, hxs.trans hys, hxs'.trans hys'⟩

/-- The run over two lists. -/
theorem statements_of_seam (p : Parser σ) :
    ∀ n q r, Seam n p q r →
      ((q.move (n + 1)).current.kind ≠ .semicolon ∨
        p.statements.2.diagnostics.size = p.diagnostics.size) →
      q.statements.1 = p.statements.1 ++ r.statements.1 ∧
        ∃ xs ys, Logs p p.statements.2 xs ∧ Logs r r.statements.2 ys ∧
          Logs q q.statements.2 (xs ++ ys) := by
  fun_induction statements p with
  | case1 p hend => exact fun n q r h => absurd hend (h.opened 0 (Nat.zero_le n))
  | case2 p hne s rest ih =>
    intro n q r h hclean
    rw [← statements_of_ne_eof hne] at hclean ⊢
    have hcurrent := h.alike.first_eq
    obtain ⟨hfirst, k, xs, hk, hp, hq, hxs, hxs'⟩ :=
      h.alike.statement (hclean.imp h.parted fun hclean => (clean_of_statements hne hclean).1)
    rw [statements_of_ne_eof hne, statements_of_ne_eof (hcurrent ▸ hne), hfirst]
    rcases Nat.lt_or_eq_of_le hk with hlt | rfl
    · -- The statement ended before the seam.
      obtain ⟨m, rfl⟩ := Nat.exists_eq_add_of_le hlt
      rw [Nat.add_assoc, ← hq.advance.current_move] at hclean
      obtain ⟨hlist, ys, zs, hys, hzs, hboth⟩ :=
        ih m _ r (h.of_reaches hp.advance hq.advance)
          (hclean.imp_right fun hclean => (clean_of_statements hne hclean).2)
      refine ⟨?_, xs ++ ys, zs, hxs.trans hys, hzs, ?_⟩
      · rw [hlist, List.append_assoc]
      · rw [List.append_assoc]
        exact hxs'.trans hboth
    · -- It ended at the seam, and nothing of the first list is left.
      have hlast : p.statement.2.advance.current.kind = .eof := by
        rw [← move_zero p.statement.2.advance, hp.advance.current_move]
        exact h.ended
      have hrest : Alike (fun _ => True) r q.statement.2.advance :=
        Alike.of_reaches (m := 0) h.behind .refl hq.advance
      obtain ⟨hlist, ys, hys, hys'⟩ := statements_of_alike r _ hrest
      rw [statements_of_eof hlast, List.append_nil, hlist]
      exact ⟨rfl, xs, ys, hxs, hys, hxs'.trans hys'⟩

end Runs

/-- The parsers of a list and of one that goes on behind it meet at the terminator
with which the first list ends. -/
theorem seam_ofSource (ts us : List Token) {n : Nat} (hlength : ts.length = n + 1)
    (hts : ∀ t ∈ ts, t.kind ≠ .eof) (hlast : ∃ t ∈ ts[n]?, t.kind = .semicolon) (config : Config) :
    Seam n (ofSource (Tape.mk ts) config) (ofSource (Tape.mk (ts ++ us)) config)
      (ofSource (Tape.mk us) config) := by
  have hp : (ofSource (Tape.mk ts) config).Holds ts := holds_ofSource (Tape.gives ts) config
  have hq : (ofSource (Tape.mk (ts ++ us)) config).Holds (ts ++ us) :=
    holds_ofSource (Tape.gives _) config
  have hr : (ofSource (Tape.mk us) config).Holds us := holds_ofSource (Tape.gives us) config
  have hbehind : ((ofSource (Tape.mk (ts ++ us)) config).move (n + 1)).Holds us :=
    hlength ▸ hq.move
  obtain ⟨t, ht, hsemi⟩ := hlast
  have hat : ((ofSource (Tape.mk ts) config).move n).current = t := by rw [hp, ht]; rfl
  refine ⟨⟨rfl, rfl, rfl, rfl, Nat.zero_le n, ?_, ?_⟩, ?_, ?_, ?_⟩
  · intro i hi hne
    refine Nat.lt_of_le_of_ne hi ?_
    rintro rfl
    exact hne (hat ▸ hsemi)
  · intro i hi
    rw [hp, hq, List.getElem?_append_left (by omega)]
  · intro i hi
    rw [hp, List.getElem?_eq_getElem (by omega)]
    exact hts _ (List.getElem_mem _)
  · rw [hp, List.getElem?_eq_none (by omega)]
    rfl
  · refine ⟨?_, ?_, rfl, grammar_move _ _, trivial, fun _ _ _ => trivial, fun i _ => ?_⟩
    · exact config_move _ _
    · exact depth_move _ _
    · rw [hbehind, hr]

end Parser

/-- **A terminator parts two programs.**  Let one list of tokens end with a terminator,
and let another not begin with one, or the first be parsed without a problem.  Then
the statements of the two lists put together are those of the first followed by those
of the second, and so are the problems. -/
theorem parse_append (ts us : List Token) (hts : ∀ t ∈ ts, t.kind ≠ .eof)
    (hlast : ∃ t ∈ ts.getLast?, t.kind = .semicolon) (config : Config)
    (hus : (∀ u ∈ us.head?, u.kind ≠ .semicolon) ∨
      (parse (Tape.mk ts) config).diagnostics.isEmpty = true) :
    let whole := parse (Tape.mk (ts ++ us)) config
    let first := parse (Tape.mk ts) config
    let second := parse (Tape.mk us) config
    whole.program.statements = first.program.statements ++ second.program.statements ∧
      whole.diagnostics.toList = first.diagnostics.toList ++ second.diagnostics.toList := by
  intro whole first second
  rw [List.getLast?_eq_getElem?] at hlast
  obtain ⟨n, hlength⟩ : ∃ n, ts.length = n + 1 := by
    refine Nat.exists_eq_succ_of_ne_zero fun hzero => ?_
    obtain ⟨t, ht, -⟩ := hlast
    rw [List.getElem?_eq_none (by omega)] at ht
    cases ht
  rw [hlength, Nat.add_sub_cancel] at hlast
  have hseam := Parser.seam_ofSource ts us hlength hts hlast config
  have hbehind : ((Parser.ofSource (Tape.mk (ts ++ us)) config).move (n + 1)).current.kind =
      (us.head?.getD .eof).kind := by
    rw [hseam.behind.first_eq]
    exact congrArg Token.kind (Parser.holds_ofSource (Tape.gives us) config).current_eq
  have hclean : ((Parser.ofSource (Tape.mk (ts ++ us)) config).move (n + 1)).current.kind ≠
      .semicolon ∨ (Parser.ofSource (Tape.mk ts) config).statements.2.diagnostics.size = 0 := by
    refine hus.imp (fun hne => ?_) Diagnostics.isEmpty_iff.1
    rw [hbehind]
    cases us with
    | nil => decide
    | cons u us => exact hne u rfl
  obtain ⟨hlist, xs, ys, hxs, hys, hboth⟩ := Parser.statements_of_seam _ n _ _ hseam hclean
  refine ⟨hlist, ?_⟩
  calc whole.diagnostics.toList
      = xs ++ ys := hboth
    _ = first.diagnostics.toList ++ second.diagnostics.toList :=
      congr (congrArg (· ++ ·) hxs.symm) hys.symm

/-- `( a ; ! ;` has two problems, and neither has an effect on `b` behind it.  `a ;`
has none, and then the list behind it may begin with another terminator. -/
theorem parse_append_resumes :
    let a : Token := ⟨.identifier, "a"⟩
    let b : Token := ⟨.identifier, "b"⟩
    let mark : Token := ⟨.semicolon, ";"⟩
    let broken : List Token := [⟨.openParen, "("⟩, a, mark, ⟨.bang, "!"⟩, mark]
    let read (t : Token) : Stmt := .exprStmt t (.ident (.ofToken t))
    let config : Config := ⟨true, 256⟩
    let whole := parse (Tape.mk (broken ++ [b])) config
    let again := parse (Tape.mk ([a, mark] ++ [mark, b])) config
    (∀ t ∈ broken, t.kind ≠ .eof) ∧ (∃ t ∈ broken.getLast?, t.kind = .semicolon) ∧
      (∀ u ∈ [b].head?, u.kind ≠ .semicolon) ∧
      (parse (Tape.mk [a, mark]) config).diagnostics.isEmpty = true ∧
      whole.program.statements = [read b] ∧
      whole.diagnostics.toList = [.unexpected .closeParen .semicolon, .noOpening .semicolon] ∧
      again.program.statements = [read a, read b] ∧
      again.diagnostics.toList = [.noOpening .semicolon] := by
  intro a b mark broken read config whole again
  have hbroken : ∀ t ∈ broken, t.kind ≠ .eof := by decide
  have hlast : ∃ t ∈ broken.getLast?, t.kind = .semicolon := ⟨mark, rfl, rfl⟩
  have hnext : ∀ u ∈ [b].head?, u.kind ≠ .semicolon := by decide
  have hclean : (parse (Tape.mk [a, mark]) config).diagnostics.isEmpty = true := by decide +kernel
  obtain ⟨hlist, hproblems⟩ := parse_append broken [b] hbroken hlast config (.inl hnext)
  obtain ⟨hlist', hproblems'⟩ :=
    parse_append [a, mark] [mark, b] (by decide) ⟨mark, rfl, rfl⟩ config (.inr hclean)
  refine ⟨hbroken, hlast, hnext, hclean, hlist.trans ?_, hproblems.trans ?_, hlist'.trans ?_,
    hproblems'.trans ?_⟩ <;> decide +kernel

/-- Without a problem before it the second terminator would be one too much, but `! ;`
takes it. -/
example :
    let broken : List Token := [⟨.bang, "!"⟩, ⟨.semicolon, ";"⟩]
    let config : Config := ⟨true, 256⟩
    (parse (Tape.mk (broken ++ [⟨.semicolon, ";"⟩])) config).diagnostics.size = 1 ∧
      (parse (Tape.mk broken) config).diagnostics.size = 1 ∧
      (parse (Tape.mk [⟨.semicolon, ";"⟩]) config).diagnostics.size = 1 := by
  decide +kernel

end Frontend
