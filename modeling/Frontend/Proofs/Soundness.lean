/-
# `Frontend.Proofs.Soundness` — what is read is a phrase that binds as it should

An expression parser that answers has read a phrase: the tokens from the current
one at the call to the current one at the return, in order and each once, are
the yield of a well bound phrase, and the answer is that phrase without its
groups.  At the root it binds tighter than the power it was read at, and what
follows does not bind tighter than that power, so nothing was left that should
have been taken in.  A parser that does not answer has moved on by some tokens
and reported one problem.

The invariant is that of the loop.  The phrase read so far is well bound, binds
tighter than the power of the call, and is closed by the next token: the next
token, if it is taken in at all, does not bind tighter than the operator at the
root.  That is what puts the phrase on the left of the next operator.
-/
import Frontend.Proofs.Phrase
import Frontend.Proofs.Stream

namespace Frontend.Parser

variable {σ : Type} [Source σ]

/-- A phrase was read between two states: its tokens come next at the first, and
the second has moved on to the last of them. -/
structure Spells (p : Parser σ) (c : Phrase) (q : Parser σ) : Prop where
  begins : p.Begins c.yield
  eq_move : q = p.move c.width
  wellBound : c.WellBound p.grammar

/-- One problem was reported some tokens on. -/
def Fails (p q : Parser σ) : Prop :=
  ∃ n e, q = (p.move n).report e

/-- What may come of reading an expression: a phrase of which something more
holds, or a failure. -/
def Outcome (holds : Phrase → Parser σ → Prop) (p : Parser σ) :
    Option Expr × Parser σ → Prop
  | (some e, q) => ∃ c, Spells p c q ∧ c.erase = e ∧ holds c q
  | (none, q) => Fails p q

/-- What holds of a finished expression: it binds tighter than the power it was read
at, and what follows does not. -/
def Maximal (g : Grammar) (b : Power) (c : Phrase) (q : Parser σ) : Prop :=
  c.TighterThan g b ∧ g.Stops b q.peek

namespace Spells

variable {p q : Parser σ} {c : Phrase}

theorem grammar_eq (h : Spells p c q) : q.grammar = p.grammar := by
  rw [h.eq_move, grammar_move]

/-- An operator before an operand. -/
theorem unary {x : Phrase} (h : Spells p.advance x q)
    (ho : p.grammar.opening p.current.kind = some .unary)
    (hx : x.TighterThan p.grammar .unary) : Spells p (.unary p.current x) q where
  begins := begins_cons.2 ⟨rfl, h.begins⟩
  eq_move := h.eq_move
  wellBound := ⟨ho, h.wellBound, hx⟩

/-- A phrase between parentheses. -/
theorem group {x : Phrase} (h : Spells p.advance x q)
    (ho : p.grammar.opening p.current.kind = some .group) (hc : q.peek.kind = .closeParen) :
    Spells p (.group p.current q.peek x) q.advance where
  begins := by
    refine begins_cons.2 ⟨rfl, begins_append.2 ⟨h.begins, begins_singleton.2 ?_⟩⟩
    rw [x.length_yield, h.eq_move, peek_move]
  eq_move := by
    rw [h.eq_move, advance_move, ← move_succ]
    rfl
  wellBound := ⟨ho, hc, h.wellBound⟩

/-- A phrase joined by the next token to the phrase behind that. -/
theorem binary {l r : Phrase} {q' : Parser σ} (hl : Spells p l q)
    (hr : Spells q.advance.advance r q') (ho : p.grammar.joining q.peek.kind = some .binary)
    (hleft : l.AtLeast p.grammar (p.grammar.power q.peek.kind))
    (hright : r.TighterThan p.grammar (p.grammar.power q.peek.kind)) :
    Spells p (.binary q.peek l r) q' where
  begins := by
    refine begins_append.2 ⟨hl.begins, begins_cons.2 ⟨?_, ?_⟩⟩
    · rw [l.length_yield, hl.eq_move, peek_move]
    · rw [l.length_yield, ← advance_move, ← hl.eq_move]
      exact hr.begins
  eq_move := by
    rw [hr.eq_move, hl.eq_move, advance_move, advance_move, move_move]
    congr 1
    simp only [Phrase.width]
    omega
  wellBound := by
    have hw : r.WellBound p.grammar := hl.grammar_eq ▸ hr.wellBound
    exact ⟨ho, hl.wellBound, hw, hleft, hright⟩

end Spells

theorem Fails.of_move {p q : Parser σ} {n : Nat} (h : Fails (p.move n) q) : Fails p q := by
  obtain ⟨k, e, rfl⟩ := h
  exact ⟨n + k, e, by rw [move_move]⟩

theorem Fails.size_lt {p q : Parser σ} (h : Fails p q) :
    p.diagnostics.size < q.diagnostics.size := by
  obtain ⟨n, e, rfl⟩ := h
  show p.diagnostics.size < ((p.move n).diagnostics.report e).size
  rw [Diagnostics.size_report, diagnostics_move]
  exact Nat.lt_succ_self _

/-! ## The loop by what comes next -/

section Loop

variable {b : Power} {e : Expr} {p : Parser σ} {j : Joining}

theorem joinWithin_of_stops (n : Nat) (h : p.grammar.Stops b p.peek) :
    joinWithin n b e p = (some e, p) := by
  rw [joinWithin.eq_def]
  exact if_pos h

theorem joinWithin_of_joining (n : Nat) (hj : p.grammar.joining p.peek.kind = none) :
    joinWithin n b e p = (some e, p) := by
  rw [joinWithin.eq_def]
  dsimp only
  rw [hj]
  exact ite_self _

theorem joinWithin_zero (h : ¬ p.grammar.Stops b p.peek)
    (hj : p.grammar.joining p.peek.kind = some j) :
    joinWithin 0 b e p = (none, p.report (.tooDeep p.config.maxDepth)) := by
  rw [joinWithin.eq_def]
  refine (if_neg h).trans ?_
  rw [hj]

theorem joinWithin_succ (n : Nat) (h : ¬ p.grammar.Stops b p.peek)
    (hj : p.grammar.joining p.peek.kind = some j) :
    joinWithin (n + 1) b e p =
      match j.run (expressionWithin n) e p.peekPower p.advance with
      | (some joined, q) => joinWithin n b joined q
      | (none, q) => (none, q) := by
  rw [joinWithin.eq_def]
  refine (if_neg h).trans ?_
  exact hj ▸ rfl

end Loop

/-! ## One step of the recursion -/

/-- What is asked of the operands on the way down. -/
def ReadsOperands (operand : Operand σ) : Prop :=
  ∀ b p, p.grammar.Joins → Outcome (Maximal p.grammar b) p (operand b p)

/-- An opening reads a phrase that has no operator between operands at its root. -/
theorem outcome_opening {operand : Operand σ} (ho : ReadsOperands operand) (o : Opening)
    (p : Parser σ) (hg : p.grammar.Joins) (hk : p.grammar.opening p.current.kind = some o) :
    Outcome (fun c _ => c.spine = 0) p (o.run operand p) := by
  cases o with
  | ident => exact ⟨.ident p.current, ⟨rfl, rfl, hk⟩, rfl, rfl⟩
  | integer =>
    simp only [Opening.run]
    split
    · next v hv => exact ⟨.integer p.current v, ⟨rfl, rfl, hk, hv⟩, rfl, rfl⟩
    · exact ⟨0, _, rfl⟩
  | unary =>
    have h := ho .unary p.advance hg
    simp only [Opening.run]
    split
    · next e q hq =>
      rw [hq] at h
      obtain ⟨x, hx, rfl, htight, -⟩ := h
      exact ⟨.unary p.current x, hx.unary hk htight, rfl, rfl⟩
    · next q hq =>
      rw [hq] at h
      exact Fails.of_move (n := 1) h
  | group =>
    have h := ho .lowest p.advance hg
    simp only [Opening.run]
    split
    · next e q hq =>
      rw [hq] at h
      obtain ⟨x, hx, rfl, -, -⟩ := h
      simp only [expect]
      split
      · next hc =>
        split at hc
        · next hkind =>
          cases hc
          exact ⟨.group p.current q.peek x, hx.group hk hkind, rfl, rfl⟩
        · cases hc
      · next hc =>
        split at hc
        · cases hc
        · cases hc
          exact ⟨x.width + 1, _, by rw [move_succ, ← hx.eq_move]⟩
    · next q hq =>
      rw [hq] at h
      exact Fails.of_move (n := 1) h

/-- Joining a phrase to what follows reads the phrase of both.  The operator takes
the phrase on its left because that was closed by it. -/
theorem outcome_joining {operand : Operand σ} (ho : ReadsOperands operand) {p q : Parser σ}
    {l : Phrase} (hg : p.grammar.Joins) (hl : Spells p l q)
    (hclosed : l.ClosedBy p.grammar q.peek) (hsemi : q.peek.kind ≠ .semicolon) (j : Joining)
    (hk : p.grammar.joining q.peek.kind = some j) :
    Outcome (fun c q' => (∃ r, c = .binary q.peek l r) ∧ c.ClosedBy p.grammar q'.peek) p
      (j.run operand l.erase q.peekPower q.advance) := by
  have hleft : l.AtLeast p.grammar (p.grammar.power q.peek.kind) := by
    cases l with
    | binary t _ _ => exact hclosed.resolve_left hsemi
    | _ => trivial
  cases j with
  | binary =>
    have h := ho q.peekPower q.advance.advance (hl.grammar_eq ▸ hg)
    have hpower : q.peekPower = p.grammar.power q.peek.kind := by rw [peekPower, hl.grammar_eq]
    have hgrammar : q.advance.advance.grammar = p.grammar := hl.grammar_eq
    simp only [Joining.run]
    split
    · next e q' hq =>
      rw [hq, hpower, hgrammar] at h
      obtain ⟨r, hr, rfl, htight, hstops⟩ := h
      exact ⟨.binary q.peek l r, hl.binary hr hk hleft htight, rfl, ⟨r, rfl⟩, hstops⟩
    · next q' hq =>
      rw [hq, hl.eq_move, advance_move, advance_move] at h
      exact h.of_move

/-! ## The recursion -/

mutual

theorem outcome_expressionWithin (n : Nat) (b : Power) (p : Parser σ) (hg : p.grammar.Joins) :
    Outcome (Maximal p.grammar b) p (expressionWithin n b p) := by
  match n with
  | 0 =>
    rw [expressionWithin]
    exact ⟨0, _, rfl⟩
  | n + 1 =>
    rw [expressionWithin]
    split
    · exact ⟨0, _, rfl⟩
    · next o ho =>
      have h := outcome_opening (outcome_expressionWithin n) o p hg ho
      split
      · next e q hq =>
        rw [hq] at h
        obtain ⟨c, hc, rfl, hspine⟩ := h
        exact outcome_joinWithin n b hg hc (Phrase.tighterThan_of_spine hspine)
          (Phrase.closedBy_of_spine hspine)
      · next q hq =>
        rw [hq] at h
        exact h

/-- The loop, from a phrase that is already read. -/
theorem outcome_joinWithin (n : Nat) (b : Power) {p q : Parser σ} {c : Phrase}
    (hg : p.grammar.Joins) (hc : Spells p c q) (htight : c.TighterThan p.grammar b)
    (hclosed : c.ClosedBy p.grammar q.peek) :
    Outcome (Maximal p.grammar b) p (joinWithin n b c.erase q) := by
  have hgrammar := hc.grammar_eq
  by_cases hstops : p.grammar.Stops b q.peek
  · rw [joinWithin_of_stops n (hgrammar ▸ hstops)]
    exact ⟨c, hc, rfl, htight, hstops⟩
  · obtain ⟨hsemi, hpower⟩ := not_or.1 hstops
    cases hj : p.grammar.joining q.peek.kind with
    | none => exact absurd (hg _ hj ▸ Power.lowest_le b) hpower
    | some j =>
      match n with
      | 0 =>
        rw [joinWithin_zero (hgrammar ▸ hstops) (hgrammar ▸ hj), hc.eq_move]
        exact ⟨_, _, rfl⟩
      | n + 1 =>
        have h := outcome_joining (outcome_expressionWithin n) hg hc hclosed hsemi j hj
        rw [joinWithin_succ n (hgrammar ▸ hstops) (hgrammar ▸ hj)]
        split
        · next joined q' hq =>
          rw [hq] at h
          obtain ⟨c', hc', rfl, ⟨r, rfl⟩, hclosed'⟩ := h
          exact outcome_joinWithin n b hg hc' (Nat.lt_of_not_le hpower) hclosed'
        · next q' hq =>
          rw [hq] at h
          exact h

end

theorem outcome_expression (b : Power) (p : Parser σ) (hg : p.grammar.Joins) :
    Outcome (Maximal p.grammar b) p (p.expression b) :=
  outcome_expressionWithin p.levels b p hg

/-- **Soundness.**  Whatever kinds were made operators between operands, and at
whatever powers: an expression that is read is a well bound phrase without its
groups.  The phrase is spelled by the tokens from the current one before to the
current one after; it binds tighter than the power of the call, and what follows
it does not. -/
theorem expression_sound (entries : List (Kind × Power)) (p : Parser σ)
    (hp : p.grammar = .withOperators entries) (b : Power) (e : Expr)
    (h : (p.expression b).1 = some e) :
    ∃ (c : Phrase) (n : Nat),
      c.yield = p.upcoming (n + 1) ∧ (p.expression b).2 = p.move n ∧ c.erase = e ∧
        c.WellBound p.grammar ∧ c.TighterThan p.grammar b ∧
        p.grammar.Stops b (p.expression b).2.peek := by
  have ho := outcome_expression b p (hp ▸ Grammar.joins_withOperators entries)
  cases hr : p.expression b with
  | mk r q =>
    rw [hr] at ho h
    subst h
    obtain ⟨c, hc, rfl, htight, hstops⟩ := ho
    refine ⟨c, c.width, ?_, hc.eq_move, rfl, hc.wellBound, htight, hstops⟩
    rw [← c.length_yield]
    exact hc.begins.symm

/-- A comma that binds tighter than any operator before its operand is taken into
the operand: `! a , b * c` is read as `(!(a , b)) * c`. -/
theorem expression_sound_comma :
    let p := (ofSource (Tape.mk [⟨.bang, "!"⟩, ⟨.identifier, "a"⟩, ⟨.comma, ","⟩,
      ⟨.identifier, "b"⟩, ⟨.asterisk, "*"⟩, ⟨.identifier, "c"⟩]) .standard).setJoining
        .comma .call .binary
    let e := Expr.binary ⟨.asterisk, "*"⟩ "*"
      (.unary ⟨.bang, "!"⟩ "!" (.binary ⟨.comma, ","⟩ ","
        (.ident (.ofToken ⟨.identifier, "a"⟩)) (.ident (.ofToken ⟨.identifier, "b"⟩))))
      (.ident (.ofToken ⟨.identifier, "c"⟩))
    p.grammar = .withOperators [(.comma, .call)] ∧ (p.expression .lowest).1 = some e ∧
      ∃ (c : Phrase) (n : Nat),
        c.yield = p.upcoming (n + 1) ∧ (p.expression .lowest).2 = p.move n ∧ c.erase = e ∧
          c.WellBound p.grammar ∧ c.TighterThan p.grammar .lowest ∧
          p.grammar.Stops .lowest (p.expression .lowest).2.peek :=
  ⟨rfl, rfl, expression_sound [(.comma, .call)] _ rfl .lowest _ rfl⟩

end Frontend.Parser
