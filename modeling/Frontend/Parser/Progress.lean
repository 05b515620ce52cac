/-
# `Frontend.Parser.Progress` — how far the window has come

Whatever is parsed, the state afterwards is the state before, advanced by some
tokens and with some problems reported: nothing else about it changes.
`Reaches p n q` says this with the number of tokens.

Over a finite source the tokens behind the window run out, and `remaining`
bounds the moves that can still change the window's current token from one that
is not the end of input.  No step raises the bound and an advance lowers it,
which is why reading a whole program ends.
-/
import Frontend.Parser.Expression

namespace Frontend.Parser

variable {σ : Type}

section Reaches

variable [Source σ]

/-- The second state is the first, advanced so many times and with problems
reported in between. -/
inductive Reaches (p : Parser σ) : Nat → Parser σ → Prop where
  | refl : Reaches p 0 p
  | advance {n : Nat} {q : Parser σ} : Reaches p n q → Reaches p (n + 1) q.advance
  | report {n : Nat} {q : Parser σ} (e : Problem) : Reaches p n q → Reaches p n (q.report e)

namespace Reaches

theorem trans {p q r : Parser σ} {m n : Nat} (h : Reaches p m q) (k : Reaches q n r) :
    Reaches p (m + n) r := by
  induction k with
  | refl => exact h
  | advance _ ih => exact ih.advance
  | report e _ ih => exact ih.report e

theorem config_eq {p q : Parser σ} {n : Nat} (h : Reaches p n q) : q.config = p.config := by
  induction h with
  | refl => rfl
  | advance _ ih => exact ih
  | report _ _ ih => exact ih

theorem depth_eq {p q : Parser σ} {n : Nat} (h : Reaches p n q) : q.depth = p.depth := by
  induction h with
  | refl => rfl
  | advance _ ih => exact ih
  | report _ _ ih => exact ih

theorem grammar_eq {p q : Parser σ} {n : Nat} (h : Reaches p n q) : q.grammar = p.grammar := by
  induction h with
  | refl => rfl
  | advance _ ih => exact ih
  | report _ _ ih => exact ih

end Reaches

/-- Some state that the first one reaches. -/
def Leads (p q : Parser σ) : Prop :=
  ∃ n, Reaches p n q

namespace Leads

theorem refl (p : Parser σ) : Leads p p :=
  ⟨0, .refl⟩

theorem advance (p : Parser σ) : Leads p p.advance :=
  ⟨1, Reaches.refl.advance⟩

theorem report (p : Parser σ) (e : Problem) : Leads p (p.report e) :=
  ⟨0, Reaches.refl.report e⟩

theorem trans {p q r : Parser σ} (h : Leads p q) (k : Leads q r) : Leads p r :=
  let ⟨_, h⟩ := h
  let ⟨_, k⟩ := k
  ⟨_, h.trans k⟩

theorem config_eq {p q : Parser σ} (h : Leads p q) : q.config = p.config :=
  let ⟨_, h⟩ := h
  h.config_eq

theorem depth_eq {p q : Parser σ} (h : Leads p q) : q.depth = p.depth :=
  let ⟨_, h⟩ := h
  h.depth_eq

theorem grammar_eq {p q : Parser σ} (h : Leads p q) : q.grammar = p.grammar :=
  let ⟨_, h⟩ := h
  h.grammar_eq

/-- As many levels may be opened afterwards as before. -/
theorem levels_eq {p q : Parser σ} (h : Leads p q) : q.levels = p.levels := by
  rw [levels, levels, h.config_eq, h.depth_eq]

end Leads

theorem leads_expect (p : Parser σ) (k : Kind) : Leads p (p.expect k).2 := by
  unfold expect
  split
  · exact .advance p
  · exact .report p _

theorem leads_takeTerminator (p : Parser σ) : Leads p p.takeTerminator := by
  unfold takeTerminator
  split
  · exact .advance p
  · exact .refl p

/-! ## Expressions -/

theorem leads_opening {operand : Operand σ} (ho : ∀ b p, Leads p (operand b p).2)
    (o : Opening) (p : Parser σ) : Leads p (o.run operand p).2 := by
  cases o with
  | ident => exact .refl p
  | integer =>
    simp only [Opening.run]
    split
    · exact .refl p
    · exact .report p _
  | unary =>
    rw [Opening.run_unary_snd]
    exact (Leads.advance p).trans (ho .unary p.advance)
  | group =>
    have h := (Leads.advance p).trans (ho .lowest p.advance)
    cases hx : operand .lowest p.advance with
    | mk x q =>
      rw [hx] at h
      cases x with
      | none =>
        rw [Opening.run_group_snd_of_none hx]
        exact h
      | some e =>
        rw [Opening.run_group_snd_of_some hx]
        exact h.trans (leads_expect q .closeParen)

theorem leads_joining {operand : Operand σ} (ho : ∀ b p, Leads p (operand b p).2)
    (left : Expr) (b : Power) (j : Joining) (p : Parser σ) :
    Leads p (j.run operand left b p).2 := by
  cases j with
  | binary =>
    rw [Joining.run_binary_snd]
    exact (Leads.advance p).trans (ho b p.advance)

mutual

theorem leads_expressionWithin (n : Nat) (b : Power) (p : Parser σ) :
    Leads p (expressionWithin n b p).2 := by
  match n with
  | 0 =>
    rw [expressionWithin]
    exact .report p _
  | n + 1 =>
    rw [expressionWithin]
    split
    · exact .report p _
    · next o _ =>
      have h := leads_opening (leads_expressionWithin n) o p
      split
      · next left q hq =>
        rw [hq] at h
        exact h.trans (leads_joinWithin n b left q)
      · next q hq => simpa [hq] using h

theorem leads_joinWithin (n : Nat) (b : Power) (left : Expr) (p : Parser σ) :
    Leads p (joinWithin n b left p).2 := by
  match n with
  | 0 =>
    rw [joinWithin]
    split
    · exact .refl p
    · split
      · exact .refl p
      · exact .report p _
  | n + 1 =>
    rw [joinWithin]
    split
    · exact .refl p
    · split
      · exact .refl p
      · next j _ =>
        have h := (Leads.advance p).trans
          (leads_joining (leads_expressionWithin n) left p.peekPower j p.advance)
        dsimp only
        split
        · next joined q hq =>
          rw [hq] at h
          exact h.trans (leads_joinWithin n b joined q)
        · next q hq => simpa [hq] using h

end

theorem leads_expression (b : Power) (p : Parser σ) : Leads p (p.expression b).2 :=
  leads_expressionWithin p.levels b p

end Reaches

/-! ## What remains over a finite source -/

section Remaining

variable [FiniteSource σ]

/-- The place in the window of the last token that is not the end of input. -/
def occupied (current peek : Token) : Nat :=
  if peek.kind ≠ .eof then 2 else if current.kind ≠ .eof then 1 else 0

theorem occupied_le (current peek : Token) : occupied current peek ≤ 2 := by
  unfold occupied
  split
  · exact Nat.le_refl _
  · split <;> decide

theorem occupied_eof (current peek : Token) {t : Token} (ht : t.kind = .eof) :
    occupied peek t = occupied current peek - 1 := by
  simp only [occupied, ht]
  grind

/-- A bound on the advances before the current token is the end of input for good. -/
def remaining (p : Parser σ) : Nat :=
  if FiniteSource.left p.source = 0 then occupied p.current p.peek
  else FiniteSource.left p.source + 2

theorem remaining_advance_lt_or (p : Parser σ) :
    p.advance.remaining < p.remaining ∨ p.advance.remaining = 0 := by
  have hle := occupied_le p.peek (Source.next p.source).1
  have hlt := FiniteSource.left_next_lt p.source
  unfold remaining advance
  by_cases hl : FiniteSource.left p.source = 0
  · have ho := occupied_eof p.current p.peek (FiniteSource.next_of_left_eq_zero _ hl)
    simp only [FiniteSource.left_next_of_left_eq_zero _ hl, hl, if_true]
    omega
  · have hlt := hlt hl
    simp only [hl, if_false]
    split <;> omega

theorem remaining_advance_le (p : Parser σ) : p.advance.remaining ≤ p.remaining := by
  have := remaining_advance_lt_or p
  omega

/-- Short of the end of input an advance is progress. -/
theorem remaining_ne_zero {p : Parser σ} (h : p.current.kind ≠ .eof) : p.remaining ≠ 0 := by
  simp only [remaining, occupied]
  grind

theorem Reaches.remaining_le {p q : Parser σ} {n : Nat} (h : Reaches p n q) :
    q.remaining ≤ p.remaining := by
  induction h with
  | refl => exact Nat.le_refl _
  | advance _ ih => exact Nat.le_trans (remaining_advance_le _) ih
  | report _ _ ih => exact ih

theorem Leads.remaining_le {p q : Parser σ} (h : Leads p q) : q.remaining ≤ p.remaining :=
  let ⟨_, h⟩ := h
  h.remaining_le

/-- Whatever was parsed from a current token that is not the end of input, the
next advance leaves less to do. -/
theorem Leads.remaining_advance_lt {p q : Parser σ} (h : Leads p q)
    (hp : p.current.kind ≠ .eof) : q.advance.remaining < p.remaining := by
  have hle := h.remaining_le
  have hne := remaining_ne_zero hp
  have := remaining_advance_lt_or q
  omega

end Remaining

end Frontend.Parser
