/-
# `Frontend.Proofs.Completeness` — every well bound phrase is read, at an exact cost

The converse of soundness, for the standard table.  A well bound phrase that
comes next, with behind it something at which its expression stops, is read as a
whole if its levels can be opened; and if they cannot, reading it reports that
one problem and no other.

A phrase is not read by itself but as the beginning of an expression, whose loop
then goes on with what follows.  So the statement that the induction carries is
about the loop: with `n` levels to open, reading an expression that begins with
the phrase comes to the loop behind the phrase, and the levels that the loop
still has are `n` less the one of the expression and those of the operators on
the left spine.  The operators that were taken in keep their levels; what the
operands opened is closed again.
-/
import Frontend.Proofs.Soundness

namespace Frontend

/-! ## The standard table -/

namespace Grammar

/-- No operator between operands binds tighter than one before its operand. -/
theorem stops_unary_standard (t : Token) : standard.Stops .unary t := by
  refine .inr ?_
  cases t.kind <;> decide

theorem stops_closeParen_standard {t : Token} (h : t.kind = .closeParen) (b : Power) :
    standard.Stops b t := by
  refine .inr ?_
  rw [h]
  exact Power.lowest_le b

/-- An operator between operands is taken in at any power below its own. -/
theorem not_stops_of_joining_standard {t : Token} {b : Power}
    (h : standard.joining t.kind = some .binary) (hb : b < standard.power t.kind) :
    ¬ standard.Stops b t := by
  rintro (hs | hs)
  · rw [hs] at h
    cases h
  · exact Power.not_lt.2 hs hb

end Grammar

namespace Phrase

variable {b : Power} {t : Token} {c : Phrase}

/-- Inside a group every operator is taken in. -/
theorem WellBound.tighterThan_lowest (h : c.WellBound .standard) :
    c.TighterThan .standard .lowest := by
  cases c with
  | binary u l r =>
    have hu : Grammar.standard.joining u.kind = some .binary := h.1
    show Power.lowest < Grammar.standard.power u.kind
    revert hu
    cases u.kind <;> decide
  | _ => trivial

/-- What stops the expression is not taken into an operand that ends with it. -/
theorem TighterThan.closedBy {g : Grammar} (h : c.TighterThan g b) (ht : g.Stops b t) :
    c.ClosedBy g t := by
  cases c with
  | binary u l r => exact ht.mono (Nat.le_of_lt h)
  | _ => trivial

theorem AtLeast.closedBy {g : Grammar} (h : c.AtLeast g (g.power t.kind)) : c.ClosedBy g t := by
  cases c with
  | binary u l r => exact .inr h
  | _ => trivial

theorem TighterThan.of_atLeast {g : Grammar} {b' : Power} (h : c.AtLeast g b') (hb : b < b') :
    c.TighterThan g b := by
  cases c with
  | binary u l r => exact Nat.lt_of_lt_of_le hb h
  | _ => trivial

end Phrase

namespace Parser

variable {σ : Type} [Source σ]

/-! ## Enough levels -/

/-- A phrase comes next, and then a token at which it ends. -/
structure Fronts (p : Parser σ) (c : Phrase) (t : Token) : Prop where
  grammar_eq : p.grammar = .standard
  begins : p.Begins (c.yield ++ [t])
  closed : c.ClosedBy .standard t

namespace Fronts

variable {p : Parser σ} {c x l r : Phrase} {o t u : Token}

theorem peek_eq (h : Fronts p c t) : (p.move c.width).peek = t := by
  rw [peek_move, ← c.length_yield]
  exact begins_singleton.1 (begins_append.1 h.begins).2

/-- Behind an operator comes its operand, closed by whatever closes it. -/
theorem unary (h : Fronts p (.unary u x) t) (hx : x.TighterThan .standard .unary) :
    p.current = u ∧ Fronts p.advance x t := by
  obtain ⟨hu, hb⟩ := begins_cons.1 h.begins
  exact ⟨hu, h.grammar_eq, hb, hx.closedBy (Grammar.stops_unary_standard t)⟩

/-- Behind an opening parenthesis comes what it encloses, closed by the other. -/
theorem group (h : Fronts p (.group o u x) t) (hu : u.kind = .closeParen) :
    p.current = o ∧ Fronts p.advance x u := by
  obtain ⟨ho, hb⟩ := begins_cons.1 h.begins
  refine ⟨ho, h.grammar_eq, (begins_append.1 hb).1, ?_⟩
  cases x with
  | binary v l r => exact Grammar.stops_closeParen_standard hu _
  | _ => trivial

/-- The left operand is closed by the operator. -/
theorem left (h : Fronts p (.binary u l r) t)
    (hl : l.AtLeast .standard (Grammar.standard.power u.kind)) : Fronts p l u := by
  have hb := h.begins
  rw [Phrase.yield, List.append_assoc, List.cons_append] at hb
  obtain ⟨hbl, hbr⟩ := begins_append.1 hb
  refine ⟨h.grammar_eq, begins_append.2 ⟨hbl, begins_singleton.2 ?_⟩, hl.closedBy⟩
  exact (begins_cons.1 hbr).1

/-- Behind the operator comes the right operand, closed by what closes the phrase. -/
theorem right (h : Fronts p (.binary u l r) t)
    (hr : r.TighterThan .standard (Grammar.standard.power u.kind)) :
    Fronts (p.move (l.width + 2)) r t := by
  have hb := h.begins
  rw [Phrase.yield, List.append_assoc, List.cons_append] at hb
  have hbr := (begins_cons.1 (begins_append.1 hb).2).2
  rw [l.length_yield, advance_move] at hbr
  exact ⟨by rw [grammar_move, h.grammar_eq], hbr, hr.closedBy h.closed⟩

end Fronts

/-- What is shown of a phrase by induction: an expression that begins with it comes
to the loop behind it. -/
def Reached (c : Phrase) (σ : Type) [Source σ] : Prop :=
  ∀ (m : Nat) (b : Power) (p : Parser σ) (t : Token), Fronts p c t → c.TighterThan .standard b →
    c.levels ≤ m + c.spine + 1 →
      expressionWithin (m + c.spine + 1) b p = joinWithin m b c.erase (p.move c.width)

/-- An operand that ends at the next token is read as a whole. -/
theorem Reached.operand {c : Phrase} (h : Reached c σ) {n : Nat} {b : Power} {p : Parser σ}
    {t : Token} (hf : Fronts p c t) (hb : c.TighterThan .standard b)
    (ht : Grammar.standard.Stops b t) (hn : c.levels ≤ n) :
    expressionWithin n b p = (some c.erase, p.move c.width) := by
  have hlt := c.spine_lt_levels
  obtain ⟨m, rfl⟩ : ∃ m, n = m + c.spine + 1 := ⟨n - c.spine - 1, by omega⟩
  rw [h m b p t hf hb hn, joinWithin_of_stops]
  rw [grammar_move, hf.grammar_eq, hf.peek_eq]
  exact ht

theorem expressionWithin_succ {n : Nat} {b : Power} {p : Parser σ} {o : Opening}
    (ho : p.grammar.opening p.current.kind = some o) :
    expressionWithin (n + 1) b p =
      match o.run (expressionWithin n) p with
      | (some left, q) => joinWithin n b left q
      | (none, q) => (none, q) := by
  rw [expressionWithin]
  exact ho ▸ rfl

/-- Behind the left operand the loop takes in the operator and the operand behind
it, and has one level less. -/
theorem joinWithin_right {p : Parser σ} {u t : Token} {l r : Phrase}
    (hf : Fronts p (.binary u l r) t) (hr : Reached r σ) (m : Nat) {b : Power}
    (hb : b < Grammar.standard.power u.kind)
    (hu : Grammar.standard.joining u.kind = some .binary)
    (hl : l.AtLeast .standard (Grammar.standard.power u.kind))
    (htight : r.TighterThan .standard (Grammar.standard.power u.kind)) (hm : r.levels ≤ m) :
    joinWithin (m + 1) b l.erase (p.move l.width) =
      joinWithin m b (Phrase.binary u l r).erase (p.move (Phrase.binary u l r).width) := by
  have hpeek := (hf.left hl).peek_eq
  have hgrammar : (p.move l.width).grammar = .standard := by rw [grammar_move, hf.grammar_eq]
  have hpower : (p.move l.width).peekPower = Grammar.standard.power u.kind := by
    rw [peekPower, hgrammar, hpeek]
  have hoperand := hr.operand (hf.right htight) htight hf.closed hm
  have hcurrent : (p.move (l.width + 1)).current = u := by rw [← peek_move, hpeek]
  rw [joinWithin_succ m (by rw [hgrammar, hpeek]; exact Grammar.not_stops_of_joining_standard hu hb)
    (by rw [hgrammar, hpeek, hu])]
  rw [move_move] at hoperand
  simp only [Joining.run, advance_move, hpower, hoperand, hcurrent]
  rw [Phrase.width, Nat.add_right_comm l.width 2]
  rfl

/-- A well bound phrase is reached over whatever source. -/
theorem reached {c : Phrase} (hc : c.WellBound .standard) : Reached c σ := by
  induction c with
  | ident v =>
    intro m b p t hf _ _
    have hv : p.current = v := (begins_cons.1 hf.begins).1
    rw [Phrase.spine, expressionWithin_succ (o := .ident) (by rw [hf.grammar_eq, hv]; exact hc)]
    simp only [Opening.run, hv]
    rfl
  | integer v i =>
    intro m b p t hf _ _
    have hv : p.current = v := (begins_cons.1 hf.begins).1
    rw [Phrase.spine, expressionWithin_succ (o := .integer) (by rw [hf.grammar_eq, hv]; exact hc.1)]
    simp only [Opening.run, hv, hc.2]
    rfl
  | unary u x ih =>
    intro m b p t hf _ hm
    obtain ⟨hu, hx, htight⟩ := hc
    obtain ⟨hcurrent, hfx⟩ := hf.unary htight
    have hoperand := (ih hx).operand (n := m) hfx htight (Grammar.stops_unary_standard t)
      (by simp only [Phrase.levels, Phrase.spine] at hm; omega)
    have hopens : p.grammar.opening p.current.kind = some .unary := by
      rw [hf.grammar_eq, hcurrent, hu]
    rw [Phrase.spine, expressionWithin_succ hopens]
    simp only [Opening.run, hoperand, hcurrent]
    rfl
  | group o v x ih =>
    intro m b p t hf _ hm
    obtain ⟨ho, hv, hx⟩ := hc
    obtain ⟨hcurrent, hfx⟩ := hf.group hv
    have hoperand := (ih hx).operand (n := m) hfx hx.tighterThan_lowest
      (Grammar.stops_closeParen_standard hv _)
      (by simp only [Phrase.levels, Phrase.spine] at hm; omega)
    have hclosing : (p.advance.move x.width).expect .closeParen =
        (true, (p.advance.move x.width).advance) := by
      rw [expect, hfx.peek_eq, if_pos hv]
    have hopens : p.grammar.opening p.current.kind = some .group := by
      rw [hf.grammar_eq, hcurrent, ho]
    rw [Phrase.spine, expressionWithin_succ hopens]
    simp only [Opening.run, hoperand, hclosing, advance_move]
    rfl
  | binary u l r ihl ihr =>
    intro m b p t hf hb hm
    obtain ⟨hu, hl, hr, hleast, htight⟩ := hc
    simp only [Phrase.levels, Phrase.spine] at hm
    have hloop := ihl hl (m + 1) b p u (hf.left hleast) (.of_atLeast hleast hb) (by omega)
    rw [Phrase.spine, show m + (l.spine + 1) + 1 = m + 1 + l.spine + 1 by omega, hloop]
    exact joinWithin_right hf (ihr hr) m hb hu hleast htight (by omega)

/-! ## Too few levels -/

/-- The limit was met, and nothing else, within so many tokens. -/
def Blocked (p : Parser σ) (n : Nat) (r : Option Expr × Parser σ) : Prop :=
  ∃ k ≤ n, r = (none, (p.move k).report (.tooDeep p.config.maxDepth))

theorem Blocked.of_move {p : Parser σ} {n k m : Nat} {r : Option Expr × Parser σ}
    (h : Blocked (p.move k) n r) (hm : k + n ≤ m) : Blocked p m r := by
  obtain ⟨i, hi, rfl⟩ := h
  exact ⟨k + i, by omega, by rw [move_move, config_move]⟩

/-- One problem is added to those that there were. -/
theorem Blocked.toList_eq {p : Parser σ} {n : Nat} {r : Option Expr × Parser σ}
    (h : Blocked p n r) :
    r.2.diagnostics.toList = p.diagnostics.toList ++ [.tooDeep p.config.maxDepth] := by
  obtain ⟨k, -, rfl⟩ := h
  exact toList_report_move p k _

/-- At the limit no expression is read, whatever it is. -/
theorem blocked_zero (b : Power) (p : Parser σ) (n : Nat) :
    Blocked p n (expressionWithin 0 b p) :=
  ⟨0, Nat.zero_le n, by rw [expressionWithin]; rfl⟩

/-- The loop meets the limit at the operator itself or in the operand behind it. -/
theorem blocked_right {p : Parser σ} {u t : Token} {l r : Phrase} {b : Power} {n : Nat}
    (hf : Fronts p (.binary u l r) t) (hb : b < Grammar.standard.power u.kind)
    (hu : Grammar.standard.joining u.kind = some .binary)
    (hl : l.AtLeast .standard (Grammar.standard.power u.kind))
    (hr : ∀ m, n = m + 1 →
      Blocked (p.move (l.width + 2)) r.width
        (expressionWithin m (Grammar.standard.power u.kind) (p.move (l.width + 2)))) :
    Blocked p (Phrase.binary u l r).width (joinWithin n b l.erase (p.move l.width)) := by
  have hpeek := (hf.left hl).peek_eq
  have hgrammar : (p.move l.width).grammar = .standard := by rw [grammar_move, hf.grammar_eq]
  have hstops : ¬ (p.move l.width).grammar.Stops b (p.move l.width).peek := by
    rw [hgrammar, hpeek]
    exact Grammar.not_stops_of_joining_standard hu hb
  have hjoining : (p.move l.width).grammar.joining (p.move l.width).peek.kind = some .binary := by
    rw [hgrammar, hpeek, hu]
  cases n with
  | zero =>
    rw [joinWithin_zero hstops hjoining, config_move]
    exact ⟨l.width, by simp only [Phrase.width]; omega, rfl⟩
  | succ m =>
    have hpower : (p.move l.width).peekPower = Grammar.standard.power u.kind := by
      rw [peekPower, hgrammar, hpeek]
    obtain ⟨k, hk, hoperand⟩ := hr m rfl
    rw [joinWithin_succ m hstops hjoining]
    simp only [Joining.run, advance_move, hpower, hoperand]
    refine Blocked.of_move (k := l.width + 2) ⟨k, hk, rfl⟩ ?_
    simp only [Phrase.width]
    omega

theorem blocked {c : Phrase} (hc : c.WellBound .standard) :
    ∀ (n : Nat) (b : Power) (p : Parser σ) (t : Token), Fronts p c t →
      c.TighterThan .standard b → n < c.levels → Blocked p c.width (expressionWithin n b p) := by
  induction c with
  | ident v =>
    intro n b p t _ _ hn
    rw [Nat.lt_one_iff.1 hn]
    exact blocked_zero b p _
  | integer v i =>
    intro n b p t _ _ hn
    rw [Nat.lt_one_iff.1 hn]
    exact blocked_zero b p _
  | unary u x ih =>
    intro n b p t hf _ hn
    obtain ⟨hu, hx, htight⟩ := hc
    obtain ⟨hcurrent, hfx⟩ := hf.unary htight
    cases n with
    | zero => exact blocked_zero b p _
    | succ n =>
      obtain ⟨k, hk, hoperand⟩ := ih hx n .unary p.advance t hfx htight
        (by simp only [Phrase.levels] at hn; omega)
      rw [expressionWithin_succ (o := .unary) (by rw [hf.grammar_eq, hcurrent]; exact hu)]
      simp only [Opening.run, hoperand]
      exact Blocked.of_move (k := 1) ⟨k, hk, rfl⟩ (by simp only [Phrase.width]; omega)
  | group o v x ih =>
    intro n b p t hf _ hn
    obtain ⟨ho, hv, hx⟩ := hc
    obtain ⟨hcurrent, hfx⟩ := hf.group hv
    cases n with
    | zero => exact blocked_zero b p _
    | succ n =>
      obtain ⟨k, hk, hoperand⟩ := ih hx n .lowest p.advance v hfx hx.tighterThan_lowest
        (by simp only [Phrase.levels] at hn; omega)
      rw [expressionWithin_succ (o := .group) (by rw [hf.grammar_eq, hcurrent]; exact ho)]
      simp only [Opening.run, hoperand]
      exact Blocked.of_move (k := 1) ⟨k, hk, rfl⟩ (by simp only [Phrase.width]; omega)
  | binary u l r ihl ihr =>
    intro n b p t hf hb hn
    obtain ⟨hu, hl, hr, hleast, htight⟩ := hc
    have hleft := hf.left hleast
    have hbl : l.TighterThan .standard b := .of_atLeast hleast hb
    by_cases hnl : n < l.levels
    · obtain ⟨k, hk, h⟩ := ihl hl n b p u hleft hbl hnl
      exact ⟨k, by simp only [Phrase.width]; omega, h⟩
    · -- The left operand is read; the limit is met behind it.
      have hlt := l.spine_lt_levels
      simp only [Phrase.levels, Phrase.spine] at hn
      obtain ⟨m, rfl⟩ : ∃ m, n = m + l.spine + 1 := ⟨n - l.spine - 1, by omega⟩
      rw [reached hl m b p u hleft hbl (Nat.not_lt.1 hnl)]
      refine blocked_right hf hb hu hleast ?_
      rintro m' rfl
      exact ihr hr m' _ _ t (hf.right htight) htight (by omega)

/-- What was read had its levels. -/
theorem Fronts.levels_le {p : Parser σ} {c : Phrase} {t : Token} {b : Power} (hf : Fronts p c t)
    (hc : c.WellBound .standard) (hb : c.TighterThan .standard b)
    (hread : (p.expression b).1 ≠ none) : c.levels ≤ p.levels := by
  refine Nat.not_lt.1 fun hdeep => hread ?_
  obtain ⟨k, -, hblocked⟩ := blocked hc p.levels b p t hf hb hdeep
  exact congrArg Prod.fst hblocked

/-! ## The exact cost -/

/-- **Completeness.**  A well bound phrase that binds tighter than a power comes
next, followed by a token at which an expression of that power ends.  If its
levels fit under the limit, on top of those that are open, it is read: the answer
is the phrase without its groups, the parser stops at its last token, and nothing
else changes; no problem is added.  If they do not fit there is no answer, and one
problem is added, which is that the limit was met. -/
theorem expression_complete (c : Phrase) (hc : c.WellBound .standard) (b : Power)
    (hb : c.TighterThan .standard b) (t : Token) (ht : Grammar.standard.Stops b t)
    (p : Parser σ) (hp : p.grammar = .standard) (hbegins : p.Begins (c.yield ++ [t])) :
    (p.depth + c.levels ≤ p.config.maxDepth →
      p.expression b = (some c.erase, p.move (c.yield.length - 1)) ∧
        (p.expression b).2.diagnostics.toList = p.diagnostics.toList) ∧
    (p.config.maxDepth < p.depth + c.levels →
      (∃ k < c.yield.length,
        p.expression b = (none, (p.move k).report (.tooDeep p.config.maxDepth))) ∧
      (p.expression b).2.diagnostics.toList =
        p.diagnostics.toList ++ [.tooDeep p.config.maxDepth]) := by
  have hf : Fronts p c t := ⟨hp, hbegins, hb.closedBy ht⟩
  have hiff : c.levels ≤ p.levels ↔ p.depth + c.levels ≤ p.config.maxDepth := by
    have hlt := c.spine_lt_levels
    simp only [levels]
    omega
  rw [c.length_yield]
  constructor
  · intro hfits
    have h : p.expression b = (some c.erase, p.move c.width) :=
      (reached hc).operand hf hb ht (hiff.2 hfits)
    exact ⟨h, by rw [h, diagnostics_move]⟩
  · intro hdeep
    have hblocked : Blocked p c.width (p.expression b) := blocked hc p.levels b p t hf hb
      (Nat.not_le.1 fun h => Nat.not_lt.2 (hiff.1 h) hdeep)
    refine ⟨?_, hblocked.toList_eq⟩
    obtain ⟨k, hk, h⟩ := hblocked
    exact ⟨k, Nat.lt_succ_of_le hk, h⟩

/-- With two levels open, `-a * (b + 0x1F)` needs six more: a limit of eight lets it
be read and a limit of seven does not. -/
theorem expression_complete_at_limit :
    let a : Phrase := .ident ⟨.identifier, "a"⟩
    let b : Phrase := .ident ⟨.identifier, "b"⟩
    let sum : Phrase := .binary ⟨.plus, "+"⟩ b (.integer ⟨.integer, "0x1F"⟩ 31)
    let c : Phrase := .binary ⟨.asterisk, "*"⟩ (.unary ⟨.minus, "-"⟩ a)
      (.group ⟨.openParen, "("⟩ ⟨.closeParen, ")"⟩ sum)
    let semicolon : Token := ⟨.semicolon, ";"⟩
    let p (limit : Nat) := (ofSource (Tape.mk (c.yield ++ [semicolon])) ⟨false, limit⟩).restore 2
    c.WellBound .standard ∧ c.TighterThan .standard .comparison ∧
      Grammar.standard.Stops .comparison semicolon ∧
      (p 8).Begins (c.yield ++ [semicolon]) ∧ (p 7).Begins (c.yield ++ [semicolon]) ∧
      (p 8).expression .comparison = (some c.erase, (p 8).move 7) ∧
      (∃ k < 8, (p 7).expression .comparison = (none, ((p 7).move k).report (.tooDeep 7))) ∧
      ((p 7).expression .comparison).2.diagnostics.toList = [.tooDeep 7] := by
  intro a b sum c semicolon p
  have hc : c.WellBound .standard := by decide
  have hb : c.TighterThan .standard .comparison := by decide
  have hs : Grammar.standard.Stops .comparison semicolon := .inl rfl
  have h (limit : Nat) := expression_complete c hc .comparison hb semicolon hs (p limit) rfl rfl
  exact ⟨hc, hb, hs, rfl, rfl, ((h 8).1 (by decide)).1, (h 7).2 (by decide)⟩

end Parser

end Frontend
