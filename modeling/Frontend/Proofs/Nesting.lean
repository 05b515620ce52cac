/-
# `Frontend.Proofs.Nesting` — levels that are opened and closed again

An expression may open so many levels, and the parsing functions are told how many.
The same can be said with the levels counted in the state.  Every expression and every
operator that is taken in opens one (`Parser.enter`), at the limit there is a complaint
instead, and an expression ends with the levels that it began with (`Parser.restore`),
whether it was read or not.  `expressionCounting` says it in this way, and the two come to the
same (`expressionCounting_eq`).  For that the levels that are open may not matter to a
function that is told how many are left (`expressionWithin_restore`).

There are two places at which this parser never comes, and it is left open what it would do
there.  One is a kind that binds tighter and yet joins nothing, which no table has that was
made by its entries.  The other is the end of a number of calls that may be made within each
other: the limit is met before, if there is one call more than there are levels.  So it is the
limit alone that ends an expression, and the tokens that an expression may pull are bounded
over a source without end as well (`leadsWithin_expression`).
-/
import Frontend.Proofs.Consumption
import Mathlib.Algebra.Group.Nat.Defs

namespace Frontend

namespace Parser

variable {σ : Type}

/-! ## Other levels open -/

/-- An answer, with so many levels open. -/
def relevel {α : Type} (depth : Nat) (r : α × Parser σ) : α × Parser σ :=
  (r.1, r.2.restore depth)

theorem relevel_of_depth_eq {α : Type} {depth : Nat} {r : α × Parser σ} (h : r.2.depth = depth) :
    relevel depth r = r := by
  subst h
  rfl

theorem enter_of_le {p : Parser σ} (h : p.config.maxDepth ≤ p.depth) :
    p.enter = (false, p.report (.tooDeep p.config.maxDepth)) :=
  if_pos h

theorem enter_of_lt {p : Parser σ} (h : p.depth < p.config.maxDepth) :
    p.enter = (true, p.restore (p.depth + 1)) :=
  if_neg (Nat.not_le.2 h)

section Expressions

variable [Source σ]

theorem expect_restore (depth : Nat) (p : Parser σ) (k : Kind) :
    (p.restore depth).expect k = relevel depth (p.expect k) := by
  by_cases hk : p.peek.kind = k
  · rw [expect_of_eq hk]
    exact expect_of_eq (p := p.restore depth) hk
  · rw [expect_of_ne hk]
    exact expect_of_ne (p := p.restore depth) hk

/-- What is asked of the operands on the way down: the levels that are open only stand in
the state. -/
def IgnoresDepth (depth : Nat) (operand : Operand σ) : Prop :=
  ∀ b p, operand b (p.restore depth) = relevel depth (operand b p)

section Steps

variable {depth : Nat} {operand operand' : Operand σ}

theorem opening_restore (ho : IgnoresDepth depth operand) (o : Opening) (p : Parser σ) :
    o.run operand (p.restore depth) = relevel depth (o.run operand p) := by
  have hadvance : (p.restore depth).advance = p.advance.restore depth := rfl
  cases o with
  | ident => rfl
  | integer =>
    have hcurrent : (p.restore depth).current = p.current := rfl
    simp only [Opening.run, hcurrent]
    cases Numeral.read? p.current.text <;> rfl
  | unary =>
    simp only [Opening.run, hadvance, ho .unary p.advance]
    obtain ⟨x, q⟩ := operand .unary p.advance
    cases x <;> rfl
  | group =>
    simp only [Opening.run, hadvance, ho .lowest p.advance]
    obtain ⟨x, q⟩ := operand .lowest p.advance
    cases x with
    | none => rfl
    | some e =>
      simp only [relevel, expect_restore]
      obtain ⟨closed, r⟩ := q.expect .closeParen
      cases closed <;> rfl

theorem joining_restore (ho : IgnoresDepth depth operand) (left : Expr) (b : Power) (j : Joining)
    (p : Parser σ) :
    j.run operand left b (p.restore depth) = relevel depth (j.run operand left b p) := by
  have hadvance : (p.restore depth).advance = p.advance.restore depth := rfl
  cases j with
  | binary =>
    simp only [Joining.run, hadvance, ho b p.advance]
    obtain ⟨x, q⟩ := operand b p.advance
    cases x <;> rfl

/-- Operands are parsed behind the current token and nowhere else. -/
theorem opening_congr (o : Opening) {p : Parser σ}
    (h : ∀ b, operand' b p.advance = operand b p.advance) :
    o.run operand' p = o.run operand p := by
  cases o <;> simp only [Opening.run, h]

theorem joining_congr (left : Expr) (b : Power) (j : Joining) {p : Parser σ}
    (h : ∀ b, operand' b p.advance = operand b p.advance) :
    j.run operand' left b p = j.run operand left b p := by
  cases j
  simp only [Joining.run, h]

end Steps

mutual

theorem expressionWithin_restore (depth n : Nat) :
    IgnoresDepth depth (expressionWithin (σ := σ) n) := by
  intro b p
  match n with
  | 0 =>
    rw [expressionWithin, expressionWithin]
    rfl
  | n + 1 =>
    have hgrammar : (p.restore depth).grammar = p.grammar := rfl
    have hcurrent : (p.restore depth).current = p.current := rfl
    rw [expressionWithin, expressionWithin, hgrammar, hcurrent]
    cases p.grammar.opening p.current.kind with
    | none => rfl
    | some o =>
      simp only [opening_restore (expressionWithin_restore depth n) o p]
      obtain ⟨x, q⟩ := o.run (expressionWithin n) p
      cases x with
      | none => rfl
      | some left => exact joinWithin_restore depth n b left q

theorem joinWithin_restore (depth n : Nat) (b : Power) (left : Expr) (p : Parser σ) :
    joinWithin n b left (p.restore depth) = relevel depth (joinWithin n b left p) := by
  by_cases hstops : p.grammar.Stops b p.peek
  · rw [joinWithin_of_stops n hstops]
    exact joinWithin_of_stops n hstops
  · cases hj : p.grammar.joining p.peek.kind with
    | none =>
      rw [joinWithin_of_joining n hj]
      exact joinWithin_of_joining n hj
    | some j =>
      match n with
      | 0 =>
        rw [joinWithin_zero hstops hj]
        exact joinWithin_zero (p := p.restore depth) hstops hj
      | n + 1 =>
        have hstep : joinWithin (n + 1) b left (p.restore depth) = _ :=
          joinWithin_succ n hstops hj
        have hpower : (p.restore depth).peekPower = p.peekPower := rfl
        have hadvance : (p.restore depth).advance = p.advance.restore depth := rfl
        rw [hstep, joinWithin_succ n hstops hj, hpower, hadvance,
          joining_restore (expressionWithin_restore depth n)]
        obtain ⟨x, q⟩ := j.run (expressionWithin n) left p.peekPower p.advance
        cases x with
        | none => rfl
        | some joined => exact joinWithin_restore depth n b joined q

end

/-! ## Levels counted in the state -/

/-- What is to be done at the places at which the parser never comes. -/
structure Detours (σ : Type) where
  /-- All calls that may be made within each other were made. -/
  spent : Parser σ → Option Expr × Parser σ
  /-- The next kind binds tighter, and the table has no joining for it. -/
  unjoined : Expr → Parser σ → Option Expr × Parser σ

mutual

/-- Parses an expression and counts the levels in the state: one is opened first, and in the
end there are as many as before.  So many calls and turns of the loop may be made within each
other. -/
def expressionCounting (detours : Detours σ) : Nat → Operand σ
  | 0, _, p => detours.spent p
  | n + 1, b, p =>
    relevel p.depth <|
      match p.enter with
      | (false, q) => (none, q)
      | (true, q) =>
        match q.grammar.opening q.current.kind with
        | none => (none, q.report (.noOpening q.current.kind))
        | some o =>
          match o.run (expressionCounting detours n) q with
          | (some left, r) => joinCounting detours n b left r
          | (none, r) => (none, r)

/-- Takes in the operators that follow an expression, and opens a level for each.  The levels
stay open. -/
def joinCounting (detours : Detours σ) :
    Nat → Power → Expr → Parser σ → Option Expr × Parser σ
  | 0, _, _, p => detours.spent p
  | n + 1, b, left, p =>
    if p.peek.kind = .semicolon ∨ p.peekPower ≤ b then (some left, p)
    else
      match p.grammar.joining p.peek.kind with
      | none => detours.unjoined left p
      | some j =>
        match p.enter with
        | (false, q) => (none, q)
        | (true, q) =>
          match j.run (expressionCounting detours n) left q.advance.currentPower q.advance with
          | (some joined, r) => joinCounting detours n b joined r
          | (none, r) => (none, r)

end

/-- Wherever an opened level leads to, there is one level less to open. -/
theorem Leads.levels_restore {p q : Parser σ} {k : Nat} (h : Leads p q) (hp : p.levels = k + 1) :
    (q.restore (p.depth + 1)).levels = k := by
  have hq : q.levels = p.levels := h.levels_eq
  have hdepth : q.depth = p.depth := h.depth_eq
  simp only [levels, restore] at hp hq ⊢
  omega

mutual

/-- With one call more than there are levels, the limit is met before the calls are used up. -/
theorem expressionCounting_eq (detours : Detours σ) (n : Nat) (b : Power) (p : Parser σ)
    (hg : p.grammar.Joins) (hn : p.levels < n) :
    expressionCounting detours n b p = p.expression b := by
  match n with
  | 0 => exact absurd hn (Nat.not_lt_zero _)
  | n + 1 =>
    rw [expressionCounting, expression]
    cases hlevels : p.levels with
    | zero =>
      rw [enter_of_le (Nat.le_of_sub_eq_zero hlevels), expressionWithin]
      rfl
    | succ k =>
      have hopen : (p.restore (p.depth + 1)).levels = k := (Leads.refl p).levels_restore hlevels
      rw [enter_of_lt (Nat.lt_of_sub_eq_succ hlevels), expressionWithin]
      have hgrammar : (p.restore (p.depth + 1)).grammar = p.grammar := rfl
      have hcurrent : (p.restore (p.depth + 1)).current = p.current := rfl
      simp only [hgrammar, hcurrent]
      cases p.grammar.opening p.current.kind with
      | none => rfl
      | some o =>
        -- There is one level more in the state and one less to open, so the operands agree.
        have hrun : o.run (expressionCounting detours n) (p.restore (p.depth + 1)) =
            relevel (p.depth + 1) (o.run (expressionWithin k) p) := by
          rw [← opening_restore (expressionWithin_restore _ k)]
          refine opening_congr o fun b => ?_
          have hoperand := expressionCounting_eq detours n b (p.restore (p.depth + 1)).advance hg
          rw [expression, (Leads.advance _).levels_eq, hopen] at hoperand
          exact hoperand (by omega)
        have hleads := leads_opening (leads_expressionWithin k) o p
        simp only [hrun]
        generalize o.run (expressionWithin k) p = r at hleads ⊢
        obtain ⟨x, q⟩ := r
        cases x with
        | none => exact relevel_of_depth_eq hleads.depth_eq
        | some left =>
          have hlevels' : (q.restore (p.depth + 1)).levels = k := hleads.levels_restore hlevels
          have hjoin := joinCounting_eq detours n b left (q.restore (p.depth + 1))
            (hleads.grammar_eq ▸ hg) (by omega) p.depth
          rw [hlevels', joinWithin_restore] at hjoin
          exact hjoin.trans
            (relevel_of_depth_eq (hleads.trans (leads_joinWithin k b left q)).depth_eq)

/-- The levels that the operators opened are still open then, and are left out of account. -/
theorem joinCounting_eq (detours : Detours σ) (n : Nat) (b : Power) (left : Expr) (p : Parser σ)
    (hg : p.grammar.Joins) (hn : p.levels < n) (depth : Nat) :
    relevel depth (joinCounting detours n b left p) =
      relevel depth (joinWithin p.levels b left p) := by
  match n with
  | 0 => exact absurd hn (Nat.not_lt_zero _)
  | n + 1 =>
    rw [joinCounting]
    by_cases hstops : p.grammar.Stops b p.peek
    · rw [joinWithin_of_stops _ hstops]
      exact congrArg (relevel depth) (if_pos hstops)
    · have hgoes : ¬ (p.peek.kind = .semicolon ∨ p.peekPower ≤ b) := hstops
      rw [if_neg hgoes]
      cases hj : p.grammar.joining p.peek.kind with
      | none => exact absurd (.inr (hg _ hj ▸ Power.lowest_le b)) hstops
      | some j =>
        cases hlevels : p.levels with
        | zero =>
          rw [enter_of_le (Nat.le_of_sub_eq_zero hlevels), joinWithin_zero hstops hj]
        | succ k =>
          have hopen : (p.restore (p.depth + 1)).levels = k := (Leads.refl p).levels_restore hlevels
          have hpower : (p.restore (p.depth + 1)).advance.currentPower = p.peekPower := rfl
          have hrun : j.run (expressionCounting detours n) left p.peekPower
                (p.restore (p.depth + 1)).advance =
              relevel (p.depth + 1) (j.run (expressionWithin k) left p.peekPower p.advance) := by
            rw [← joining_restore (expressionWithin_restore _ k)]
            refine joining_congr left _ j fun b => ?_
            have hoperand :=
              expressionCounting_eq detours n b (p.restore (p.depth + 1)).advance.advance hg
            rw [expression, ((Leads.advance _).trans (.advance _)).levels_eq, hopen] at hoperand
            exact hoperand (by omega)
          have hleads := (Leads.advance p).trans
            (leads_joining (leads_expressionWithin k) left p.peekPower j p.advance)
          rw [enter_of_lt (Nat.lt_of_sub_eq_succ hlevels), joinWithin_succ k hstops hj]
          simp only [hpower, hrun]
          generalize j.run (expressionWithin k) left p.peekPower p.advance = r at hleads ⊢
          obtain ⟨x, q⟩ := r
          cases x with
          | none => rfl
          | some joined =>
            have hlevels' : (q.restore (p.depth + 1)).levels = k :=
              hleads.levels_restore hlevels
            -- The level of this operator stays open while the loop goes on.
            have hjoin := joinCounting_eq detours n b joined (q.restore (p.depth + 1))
              (hleads.grammar_eq ▸ hg) (by omega) depth
            rw [hlevels', joinWithin_restore] at hjoin
            exact hjoin

end

/-! ## The tokens that the levels allow -/

/-- The second state is the first, advanced no more than so many times and with problems
reported in between. -/
def LeadsWithin (k : Nat) (p q : Parser σ) : Prop :=
  ∃ n ≤ k, Reaches p n q

section LeadsWithin

variable {p q r : Parser σ} {k l : Nat}

theorem LeadsWithin.refl (k : Nat) (p : Parser σ) : LeadsWithin k p p :=
  ⟨0, Nat.zero_le k, .refl⟩

theorem LeadsWithin.advance (p : Parser σ) : LeadsWithin 1 p p.advance :=
  ⟨1, Nat.le_refl 1, Reaches.refl.advance⟩

theorem LeadsWithin.report (k : Nat) (p : Parser σ) (e : Problem) :
    LeadsWithin k p (p.report e) :=
  ⟨0, Nat.zero_le k, Reaches.refl.report e⟩

theorem LeadsWithin.trans (h : LeadsWithin k p q) (h' : LeadsWithin l q r) :
    LeadsWithin (k + l) p r := by
  obtain ⟨m, hm, hpq⟩ := h
  obtain ⟨n, hn, hqr⟩ := h'
  exact ⟨m + n, Nat.add_le_add hm hn, hpq.trans hqr⟩

theorem LeadsWithin.mono (h : LeadsWithin k p q) (hkl : k ≤ l) : LeadsWithin l p q := by
  obtain ⟨n, hn, hpq⟩ := h
  exact ⟨n, Nat.le_trans hn hkl, hpq⟩

theorem leadsWithin_expect (p : Parser σ) (k : Kind) : LeadsWithin 1 p (p.expect k).2 := by
  unfold expect
  split
  · exact .advance p
  · exact .report 1 p _

/-- What is asked of the operands on the way down. -/
def PullsWithin (k : Nat) (operand : Operand σ) : Prop :=
  ∀ b p, LeadsWithin k p (operand b p).2

/-- Around an operand there are two tokens at most, which is so for a group. -/
theorem leadsWithin_opening {operand : Operand σ} (ho : PullsWithin k operand) (o : Opening)
    (p : Parser σ) : LeadsWithin (k + 2) p (o.run operand p).2 := by
  have hoperand (b : Power) : LeadsWithin (k + 1) p (operand b p.advance).2 :=
    Nat.add_comm k 1 ▸ (LeadsWithin.advance p).trans (ho b p.advance)
  cases o with
  | ident => exact .refl _ p
  | integer =>
    simp only [Opening.run]
    split
    · exact .refl _ p
    · exact .report _ p _
  | unary =>
    rw [Opening.run_unary_snd]
    exact (hoperand .unary).mono (Nat.le_succ _)
  | group =>
    have h := hoperand .lowest
    cases hx : operand .lowest p.advance with
    | mk x q =>
      rw [hx] at h
      cases x with
      | none =>
        rw [Opening.run_group_snd_of_none hx]
        exact h.mono (Nat.le_succ _)
      | some e =>
        rw [Opening.run_group_snd_of_some hx]
        exact h.trans (leadsWithin_expect q .closeParen)

theorem leadsWithin_joining {operand : Operand σ} (ho : PullsWithin k operand) (left : Expr)
    (b : Power) (j : Joining) (p : Parser σ) :
    LeadsWithin (k + 1) p (j.run operand left b p).2 := by
  cases j with
  | binary =>
    rw [Joining.run_binary_snd]
    exact Nat.add_comm k 1 ▸ (LeadsWithin.advance p).trans (ho b p.advance)

end LeadsWithin

/-- As many tokens as an expression may pull with so many levels, and as many as the operators
behind one may.  Each level is given to an operand with its two tokens, and given again to the
operators that follow. -/
def allowance : Nat → Nat
  | 0 => 0
  | n + 1 => allowance n + 2 + allowance n

theorem allowance_eq (n : Nat) : allowance n = 2 ^ (n + 1) - 2 := by
  have hsum : allowance n + 2 = 2 ^ (n + 1) := by
    induction n with
    | zero => rfl
    | succ n ih =>
      rw [Nat.pow_succ, ← ih, allowance]
      omega
  omega

mutual

theorem leadsWithin_expressionWithin (n : Nat) :
    PullsWithin (allowance n) (expressionWithin (σ := σ) n) := by
  intro b p
  match n with
  | 0 =>
    rw [expressionWithin]
    exact .report _ p _
  | n + 1 =>
    rw [expressionWithin]
    split
    · exact .report _ p _
    · next o _ =>
      have h := leadsWithin_opening (leadsWithin_expressionWithin n) o p
      split
      · next left q hq =>
        rw [hq] at h
        exact h.trans (leadsWithin_joinWithin n b left q)
      · next q hq =>
        rw [hq] at h
        exact h.mono (Nat.le_add_right _ _)

theorem leadsWithin_joinWithin (n : Nat) (b : Power) (left : Expr) (p : Parser σ) :
    LeadsWithin (allowance n) p (joinWithin n b left p).2 := by
  by_cases hstops : p.grammar.Stops b p.peek
  · rw [joinWithin_of_stops n hstops]
    exact .refl _ p
  · cases hj : p.grammar.joining p.peek.kind with
    | none =>
      rw [joinWithin_of_joining n hj]
      exact .refl _ p
    | some j =>
      match n with
      | 0 =>
        rw [joinWithin_zero hstops hj]
        exact .report _ p _
      | n + 1 =>
        -- The operator and its operand, before which the parser moves on twice.
        have h : LeadsWithin (allowance n + 2) p
            (j.run (expressionWithin n) left p.peekPower p.advance).2 :=
          ((LeadsWithin.advance p).trans
            (leadsWithin_joining (leadsWithin_expressionWithin n) left p.peekPower j
              p.advance)).mono (by omega)
        rw [joinWithin_succ n hstops hj]
        split
        · next joined q hq =>
          rw [hq] at h
          exact h.trans (leadsWithin_joinWithin n b joined q)
        · next q hq =>
          rw [hq] at h
          exact h.mono (Nat.le_add_right _ _)

end

theorem leadsWithin_expression (b : Power) (p : Parser σ) :
    LeadsWithin (2 ^ (p.levels + 1) - 2) p (p.expression b).2 :=
  allowance_eq p.levels ▸ leadsWithin_expressionWithin p.levels b p

/-- The same state over a source that keeps a log, with nothing in it. -/
def logged (p : Parser σ) : Parser (Source.Logged σ) where
  source := .start p.source
  current := p.current
  peek := p.peek
  config := p.config
  depth := p.depth
  grammar := p.grammar
  diagnostics := p.diagnostics

/-- **The limit ends an expression.**  A call reads an expression, or fails, over every source,
one without end included.  It does so as if the levels were counted in the state and no more
calls and turns of the loop could be made within each other than there are levels, and one.
And it pulls no more than `2 ^ (r + 1) - 2` tokens, where `r` is the number of levels that it
may open.  The log that they are read off changes nothing. -/
theorem expression_pulls_within (p : Parser σ) (hp : p.grammar = .standard) (b : Power) :
    let r := p.config.maxDepth - p.depth
    (∀ (detours : Detours σ) (n : Nat), r < n →
      expressionCounting detours n b p = p.expression b) ∧
    (∃ n ≤ 2 ^ (r + 1) - 2,
      (p.logged.expression b).2.source.pulled = Source.taken n p.source) ∧
    (p.logged.expression b).1 = (p.expression b).1 ∧
    (p.logged.expression b).2.map (fun _ s => s) Source.Logged.source = (p.expression b).2 := by
  intro r
  have hsame : p.expression b =
      carry (fun _ s => s) Source.Logged.source (p.logged.expression b) :=
    expressionWithin_map Source.Logged.morphism p.levels b p.logged fun _ _ _ => rfl
  refine ⟨fun detours n hn => ?_, ?_, ?_, ?_⟩
  · exact expressionCounting_eq detours n b p (hp ▸ Grammar.joins_standard) hn
  · obtain ⟨n, hn, hreaches⟩ := leadsWithin_expression b p.logged
    refine ⟨n, hn, ?_⟩
    rw [hreaches.source_eq, Source.Logged.drop_eq]
    exact List.nil_append _
  · rw [hsame, carry, funext Expr.retext_self]
    exact Option.map_id'.symm
  · rw [hsame, carry]

end Expressions

end Parser

/-- Two tokens in turn, without end. -/
structure Alternation where
  first : Token
  second : Token

instance : Source Alternation where
  next s := (s.first, ⟨s.second, s.first⟩)

namespace Parser

/-- A sum of names that never ends, with three levels to open: two operators are taken in, and at
the third the limit is met.  Four tokens were pulled then. -/
theorem expression_pulls_within_endless :
    let a : Token := ⟨.identifier, "a"⟩
    let plus : Token := ⟨.plus, "+"⟩
    let p := (ofSource (Alternation.mk a plus) ⟨false, 4⟩).restore 1
    let detours : Detours Alternation := ⟨fun q => (none, q), fun _ q => (none, q)⟩
    p.grammar = .standard ∧ p.config.maxDepth - p.depth < 4 ∧
      expressionCounting detours 4 .lowest p = p.expression .lowest ∧
      (p.expression .lowest).1 = none ∧
      (p.logged.expression .lowest).2.source.pulled = [a, plus, a, plus] ∧
      ∃ n ≤ 14, (p.logged.expression .lowest).2.source.pulled = Source.taken n p.source := by
  intro a plus p detours
  obtain ⟨hcounting, hpulled, -⟩ := expression_pulls_within p rfl .lowest
  exact ⟨rfl, by decide, hcounting detours 4 (by decide), rfl, rfl, hpulled⟩

end Parser

end Frontend
