/-
# `Frontend.Proofs.Height` — how high the trees grow under a limit

The limit bounds the levels that are open at a time.  It is meant to bound the
height of the trees too, and it does, but not by a multiple of itself: the
levels of a group are closed behind its parenthesis, and the operators that
follow open them again on top of a tree that has grown already.  With a group in a
group in a group, each followed by as many operators as there are levels left, the
height is a sum that has a term for each level.

`peak n` is what this comes to with `n` levels.  No expression that is read is
higher, which is an induction over its phrase: what opens an expression is no
higher than with one level less, and every operator on the left spine adds one.
The towers are read and are as high as that, so there is no better bound.
-/
import Frontend.Proofs.Sentence

namespace Frontend

namespace Phrase

/-! ## The bound -/

/-- The greatest height of an expression that is read with so many levels.  The first
token opens one and leaves `n` to what stands behind it; then at most `n - 1`
operators follow, each of which opens a level and leaves one to its operand. -/
def peak : Nat → Nat
  | 0 => 0
  | n + 1 => max n (peak n) + (n - 1)

theorem peak_succ (n : Nat) : peak (n + 1) = max n (peak n) + (n - 1) := rfl

theorem peak_le_peak {m n : Nat} (h : m ≤ n) : peak m ≤ peak n := by
  induction h with
  | refl => exact Nat.le_refl _
  | @step n _ ih =>
    rw [peak_succ]
    omega

theorem le_peak (n : Nat) : n + 3 ≤ peak (n + 3) := by
  rw [peak_succ]
  omega

/-- From three levels on the bound grows with the square of the levels. -/
theorem two_mul_peak (n : Nat) : 2 * peak (n + 3) = (n + 2) * (n + 1) + 4 := by
  induction n with
  | zero => rfl
  | succ n ih =>
    have hle := le_peak n
    have hpeak : peak (n + 1 + 3) = peak (n + 3) + (n + 2) := by
      rw [Nat.add_right_comm, peak_succ, Nat.max_eq_right hle]
      rfl
    calc 2 * peak (n + 1 + 3)
        = (n + 2) * (n + 1) + 4 + 2 * (n + 2) := by rw [hpeak, Nat.mul_add, ih]
      _ = (n + 1 + 2) * (n + 2) + 4 := by
        rw [Nat.add_mul (n + 1), Nat.mul_comm (n + 1)]
        omega

/-- No multiple of the levels is a bound. -/
theorem mul_lt_peak {k n : Nat} (h : 2 * k + 3 ≤ n) : k * n < peak n := by
  induction h with
  | refl =>
    have hpeak := two_mul_peak (2 * k)
    have hsquare : (2 * k + 2) * (2 * k + 1) = 2 * (k * (2 * k + 3)) + 2 := by grind
    omega
  | @step n hn ih =>
    have hn : 2 * k + 3 ≤ n := hn
    rw [peak_succ, Nat.mul_succ]
    omega

theorem peak_le_four_mul {n : Nat} (h : n ≤ 10) : peak n ≤ 4 * n := by
  revert h
  revert n
  decide

/-- One more level before an operand is worth at least one edge. -/
theorem max_peak_lt (n : Nat) : max n (peak n) < max (n + 1) (peak (n + 1)) := by
  match n with
  | 0 => decide
  | 1 => decide
  | n + 2 =>
    rw [peak_succ (n + 2)]
    omega

/-! ## No phrase is higher -/

/-- The operand of an operator before it has no operator between operands at its root. -/
theorem TighterThan.spine_eq_zero {c : Phrase} (h : c.TighterThan .standard .unary) :
    c.spine = 0 := by
  cases c with
  | binary t l r =>
    have hle : Grammar.standard.power t.kind ≤ .unary := by cases t.kind <;> decide
    exact absurd h (Power.not_lt.2 hle)
  | _ => rfl

theorem spine_add_two_le (c : Phrase) : c.spine = 0 ∨ c.spine + 2 ≤ c.levels := by
  cases c with
  | binary t l r =>
    have hr := r.spine_lt_levels
    simp only [levels]
    omega
  | _ => exact .inl rfl

/-- There are two operators less on the left spine than there are levels. -/
theorem height_le_of_add_spine {c : Phrase}
    (h : ∀ n, c.levels ≤ n + 1 → c.erase.height ≤ max n (peak n) + c.spine) :
    c.erase.height ≤ peak c.levels := by
  have hspine := c.spine_add_two_le
  have hpos := c.spine_lt_levels
  obtain ⟨n, hn⟩ : ∃ n, c.levels = n + 1 := ⟨c.levels - 1, by omega⟩
  have hle := h n (by omega)
  rw [hn, peak_succ]
  omega

/-- What opens the expression is no higher than with one level less, and every operator
on the left spine adds one edge to it. -/
theorem height_erase_le_add_spine {c : Phrase} (hc : c.WellBound .standard) :
    ∀ n, c.levels ≤ n + 1 → c.erase.height ≤ max n (peak n) + c.spine := by
  induction c with
  | ident t => exact fun n _ => Nat.zero_le _
  | integer t v => exact fun n _ => Nat.zero_le _
  | unary t x ih =>
    intro n hn
    obtain ⟨-, hx, htight⟩ := hc
    have hpos := x.spine_lt_levels
    simp only [levels] at hn
    obtain ⟨m, rfl⟩ : ∃ m, n = m + 1 := ⟨n - 1, by omega⟩
    have hx := ih hx m (by omega)
    have hstep := max_peak_lt m
    rw [htight.spine_eq_zero] at hx
    simp only [erase, Expr.height, spine]
    omega
  | group o u x ih =>
    intro n hn
    simp only [levels] at hn
    have hx : x.erase.height ≤ peak x.levels := height_le_of_add_spine (ih hc.2.2)
    have hmono : peak x.levels ≤ peak n := peak_le_peak (by omega)
    simp only [erase, spine]
    omega
  | binary t l r ihl ihr =>
    intro n hn
    obtain ⟨-, hl, hr, -, -⟩ := hc
    simp only [levels, spine] at hn
    have hl := ihl hl n (by omega)
    have hr : r.erase.height ≤ peak r.levels := height_le_of_add_spine (ihr hr)
    have hmono : peak r.levels ≤ peak n := peak_le_peak (by omega)
    simp only [erase, Expr.height, spine]
    omega

theorem height_erase_le {c : Phrase} (hc : c.WellBound .standard) :
    c.erase.height ≤ peak c.levels :=
  height_le_of_add_spine (height_erase_le_add_spine hc)

/-! ## Towers are as high -/

/-- A phrase with so many names added behind it. -/
def plus (c : Phrase) : Nat → Phrase
  | 0 => c
  | n + 1 => .binary ⟨.plus, "+"⟩ (c.plus n) (.ident ⟨.identifier, "a"⟩)

/-- The phrase that is the highest with so many levels. -/
def tower : Nat → Phrase
  | 0 => .ident ⟨.identifier, "a"⟩
  | 1 => .unary ⟨.minus, "-"⟩ (tower 0)
  | 2 => (Phrase.unary ⟨.minus, "-"⟩ (tower 1)).plus 1
  | n + 3 => (tower (n + 2)).enclosed.plus (n + 2)

section Plus

variable {c : Phrase}

theorem spine_plus (hc : c.spine = 0) (n : Nat) : (c.plus n).spine = n := by
  induction n with
  | zero => exact hc
  | succ n ih => rw [plus, spine, ih]

theorem height_erase_plus (c : Phrase) (n : Nat) :
    (c.plus n).erase.height = c.erase.height + n := by
  induction n with
  | zero => rfl
  | succ n ih =>
    simp only [plus, erase, Expr.height, ih]
    omega

theorem levels_plus_le (hc : c.spine = 0) {k : Nat} (hk : c.levels ≤ k + 1) :
    ∀ n, n < k → (c.plus n).levels ≤ k + 1 := by
  intro n
  induction n with
  | zero => exact fun _ => hk
  | succ n ih =>
    intro hn
    have hleft := ih (Nat.lt_of_succ_lt hn)
    simp only [plus, levels, spine, spine_plus hc]
    omega

theorem wellBound_plus (hc : c.WellBound .standard) (hspine : c.spine = 0) (n : Nat) :
    (c.plus n).WellBound .standard := by
  induction n with
  | zero => exact hc
  | succ n ih =>
    refine ⟨rfl, ih, rfl, ?_, trivial⟩
    cases n with
    | zero => exact atLeast_of_spine hspine
    | succ n => exact Nat.le_refl _

end Plus

theorem WellBound.enclosed {c : Phrase} (h : c.WellBound .standard) :
    c.enclosed.WellBound .standard :=
  ⟨rfl, rfl, h⟩

theorem levels_enclosed_le {c : Phrase} {n : Nat} (h : c.levels ≤ n) :
    c.enclosed.levels ≤ n + 1 := by
  simp only [enclosed, levels]
  omega

/-- A tower can be read with as many levels as it is built for, and is as high as the
bound allows. -/
structure Peaks (c : Phrase) (n : Nat) : Prop where
  wellBound : c.WellBound .standard
  levels_le : c.levels ≤ n
  height_eq : c.erase.height = peak n

theorem peaks_tower (n : Nat) : (tower n).Peaks (n + 1) := by
  induction n using tower.induct with
  | case1 => exact ⟨by decide, by decide, by decide⟩
  | case2 => exact ⟨by decide, by decide, by decide⟩
  | case3 => exact ⟨by decide, by decide, by decide⟩
  | case4 n ih =>
    refine ⟨wellBound_plus ih.wellBound.enclosed rfl _, ?_, ?_⟩
    · exact levels_plus_le rfl (levels_enclosed_le ih.levels_le) (n + 2) (Nat.lt_succ_self _)
    · rw [tower, height_erase_plus, enclosed, erase, ih.height_eq, peak_succ (n + 3),
        Nat.max_eq_right (le_peak n)]
      rfl

end Phrase

namespace Parser

variable {σ : Type}

/-! ## What is read -/

section Calls

variable [Source σ] {p q : Parser σ}

/-- An expression is read from a phrase that needs no more levels than there are. -/
theorem exists_phrase_of_expression (hp : p.grammar = .standard) {b : Power} {e : Expr}
    (h : (p.expression b).1 = some e) :
    ∃ c : Phrase, c.WellBound .standard ∧ c.erase = e ∧ c.levels ≤ p.levels := by
  have ho := outcome_expression b p (hp ▸ Grammar.joins_standard)
  cases hr : p.expression b with
  | mk r q =>
    rw [hr] at ho h
    subst h
    obtain ⟨c, hc, rfl, htight, hstops⟩ := ho
    rw [hp] at htight hstops
    have hwell : c.WellBound .standard := hp ▸ hc.wellBound
    have hnext : (p.move c.yield.length).Begins [q.peek] := by
      rw [begins_singleton, c.length_yield, ← peek_move, hc.eq_move]
    have hfronts : Fronts p c q.peek :=
      ⟨hp, begins_append.2 ⟨hc.begins, hnext⟩, htight.closedBy hstops⟩
    exact ⟨c, hwell, rfl, hfronts.levels_le hwell htight (by simp [hr])⟩

/-- With the standard table no expression is higher than its levels allow. -/
theorem height_expression_le (hp : p.grammar = .standard) {b : Power} {e : Expr}
    (h : (p.expression b).1 = some e) : e.height ≤ Phrase.peak p.levels := by
  obtain ⟨c, hc, rfl, hlevels⟩ := exists_phrase_of_expression hp h
  exact Nat.le_trans (Phrase.height_erase_le hc) (Phrase.peak_le_peak hlevels)

/-- The expression in a statement was read by a call of its own. -/
theorem Dispatch.exists_expression {s : Option Stmt} {t : Stmt} {e : Expr} (h : Dispatch p s q)
    (ht : t ∈ s) (he : e ∈ t.expr?) : ∃ n, ((p.move n).expression .lowest).1 = some e := by
  cases h with
  | letNoName | letNoMark => cases ht
  | letValue =>
    cases ht
    exact ⟨3, he⟩
  | letSkip | returnSkip =>
    cases ht
    cases he
  | returnValue =>
    cases ht
    exact ⟨1, he⟩
  | expr =>
    obtain ⟨v, hv, rfl⟩ := Option.map_eq_some_iff.1 ht
    cases he
    exact ⟨0, hv⟩

end Calls

section Runs

variable [FiniteSource σ] {p : Parser σ} {config : Config} {c : Phrase}

theorem exists_expression_of_mem_statements (p : Parser σ) :
    ∀ s ∈ p.statements.1, ∀ e ∈ s.expr?,
      ∃ q, Leads p q ∧ (q.expression .lowest).1 = some e := by
  fun_induction statements p with
  | case1 p _ => exact fun s hs => absurd hs List.not_mem_nil
  | case2 p _ s rest ih =>
    intro t ht e he
    rcases List.mem_append.1 ht with ht | ht
    · obtain ⟨n, hn⟩ := (dispatch_statement p).exists_expression (Option.mem_toList.1 ht) he
      exact ⟨_, leads_move p n, hn⟩
    · obtain ⟨q, hq, hread⟩ := ih t ht e he
      exact ⟨q, (leads_statement p).trans ((Leads.advance _).trans hq), hread⟩

/-- A phrase by itself is read as a statement by itself, whatever its length, if its
levels can be opened. -/
theorem Ready.statements_of_phrase (h : Ready p config c.yield) (hc : c.WellBound .standard)
    (hfits : c.levels ≤ config.maxDepth) :
    p.statements.1 = [.exprStmt p.current c.erase] ∧
      p.statements.2.diagnostics = p.diagnostics := by
  have hfront : Ready p config (c.yield ++ []) := by rwa [List.append_nil]
  obtain ⟨k, hvalue, hrest⟩ := hfront.value_of_phrase hc (.bare (by rintro _ ⟨⟩)) hfits
  obtain ⟨-, hopen, hform⟩ := hfront.current_of_phrase hc
  have hne : p.current.kind ≠ .eof := by
    intro hend
    simp [atTerminator, Token.is, hend] at hopen
  have hd := Dispatch.expr (p := p) (by simp [hform]) (by simp [hform])
  rw [hvalue] at hd
  have hend : (p.move (k + 1)).current.kind = .eof := congrArg Token.kind hrest.holds.current_eq
  rw [statements_of_ne_eof hne, hd.statement_eq, advance_move, statements_of_eof hend]
  exact ⟨rfl, diagnostics_move p _⟩

end Runs

end Parser

/-! ## Whole programs -/

/-- The expressions of the statements in order, each as a whole. -/
def Program.trees (p : Program) : List Expr :=
  p.statements.filterMap Stmt.expr?

theorem parse_phrase {c : Phrase} (config : Config) (hc : c.WellBound .standard)
    (hfits : c.levels ≤ config.maxDepth) :
    (parse (Tape.mk c.yield) config).program.trees = [c.erase] ∧
      (parse (Tape.mk c.yield) config).diagnostics.isEmpty = true := by
  have hready : Parser.Ready (Parser.ofSource (Tape.mk c.yield) config) config c.yield :=
    ⟨rfl, rfl, rfl, Parser.holds_ofSource (Tape.gives _) _⟩
  obtain ⟨hlist, hclean⟩ := hready.statements_of_phrase hc hfits
  exact ⟨congrArg (List.filterMap Stmt.expr?) hlist, congrArg Diagnostics.isEmpty hclean⟩

theorem height_le_peak {σ : Type} [FiniteSource σ] (source : σ) (config : Config) :
    ∀ e ∈ (parse source config).program.trees, e.height ≤ Phrase.peak config.maxDepth := by
  intro e he
  obtain ⟨s, hs, he⟩ := List.mem_filterMap.1 he
  obtain ⟨q, ⟨n, hq⟩, hread⟩ := Parser.exists_expression_of_mem_statements _ s hs e he
  have hlevels : q.levels = config.maxDepth := by
    rw [Parser.levels, hq.config_eq, hq.depth_eq]
    rfl
  exact hlevels ▸ Parser.height_expression_le hq.grammar_eq hread

/-- Under every limit but zero some tree is as high as the peak. -/
theorem exists_height_eq_peak {config : Config} (h : 0 < config.maxDepth) :
    ∃ ts, (parse (Tape.mk ts) config).diagnostics.isEmpty = true ∧
      ∃ e ∈ (parse (Tape.mk ts) config).program.trees,
        e.height = Phrase.peak config.maxDepth := by
  obtain ⟨n, hn⟩ : ∃ n, config.maxDepth = n + 1 := ⟨config.maxDepth - 1, by omega⟩
  obtain ⟨hwell, hlevels, hheight⟩ := Phrase.peaks_tower n
  obtain ⟨hlist, hclean⟩ := parse_phrase config hwell (hn ▸ hlevels)
  exact ⟨_, hclean, _, hlist ▸ List.mem_singleton_self _, hn ▸ hheight⟩

theorem exists_mul_lt_height {config : Config} {k : Nat} (h : 2 * k + 3 ≤ config.maxDepth) :
    ∃ ts, (parse (Tape.mk ts) config).diagnostics.isEmpty = true ∧
      ∃ e ∈ (parse (Tape.mk ts) config).program.trees, k * config.maxDepth < e.height := by
  obtain ⟨ts, hclean, e, he, hheight⟩ :=
    exists_height_eq_peak (Nat.lt_of_lt_of_le (Nat.succ_pos _) h)
  exact ⟨ts, hclean, e, he, hheight ▸ Phrase.mul_lt_peak h⟩

/-- **The height under a limit.**  Up to a limit of ten every tree of a program is at
most four times as high as the limit, and from eleven on there are programs with
higher ones.  What bounds the height under every limit is its peak; and whatever the
multiple, under every limit that is large enough a program is read without a problem
that has a tree higher than this multiple of the limit. -/
theorem height_le_four_mul_iff (config : Config) :
    ((∀ {σ : Type} [FiniteSource σ] (source : σ),
        ∀ e ∈ (parse source config).program.trees, e.height ≤ 4 * config.maxDepth) ↔
      config.maxDepth ≤ 10) ∧
    (∀ {σ : Type} [FiniteSource σ] (source : σ),
      ∀ e ∈ (parse source config).program.trees, e.height ≤ Phrase.peak config.maxDepth) ∧
    ∀ k, 2 * k + 3 ≤ config.maxDepth →
      ∃ ts, (parse (Tape.mk ts) config).diagnostics.isEmpty = true ∧
        ∃ e ∈ (parse (Tape.mk ts) config).program.trees, k * config.maxDepth < e.height := by
  refine ⟨⟨fun hbound => ?_, fun hten _ _ source e he => ?_⟩, fun source => ?_, fun k hk => ?_⟩
  · refine Nat.not_lt.1 fun hten => ?_
    obtain ⟨ts, -, e, he, hhigh⟩ := exists_mul_lt_height (k := 4) hten
    exact Nat.not_lt.2 (hbound (Tape.mk ts) e he) hhigh
  · exact Nat.le_trans (height_le_peak source config e he) (Phrase.peak_le_four_mul hten)
  · exact height_le_peak source config
  · exact exists_mul_lt_height hk

/-- Under a limit of eleven a tower for ten in a group, with seven names added behind
it, is higher than four times the limit. -/
theorem four_mul_lt_height :
    let c := (Phrase.tower 9).enclosed.plus 7
    let run := parse (Tape.mk c.yield) ⟨false, 11⟩
    run.diagnostics.isEmpty = true ∧ ∃ e ∈ run.program.trees, 4 * 11 < e.height := by
  intro c run
  obtain ⟨htower, hlevels, hheight⟩ := Phrase.peaks_tower 9
  have hc : c.WellBound .standard := Phrase.wellBound_plus htower.enclosed rfl 7
  have hfits : c.levels ≤ 11 :=
    Phrase.levels_plus_le rfl (Phrase.levels_enclosed_le hlevels) 7 (by decide)
  have hhigh : c.erase.height = Phrase.peak 10 + 7 := by
    rw [Phrase.height_erase_plus, Phrase.enclosed, Phrase.erase, hheight]
  obtain ⟨hlist, hclean⟩ := parse_phrase ⟨false, 11⟩ hc hfits
  refine ⟨hclean, c.erase, hlist ▸ List.mem_singleton_self _, ?_⟩
  rw [hhigh]
  decide

/-! ## The greatest height -/

namespace Phrase

theorem peak_eq {n : Nat} (h : 3 ≤ n) : peak n = (n - 1) * (n - 2) / 2 + 2 := by
  obtain ⟨m, rfl⟩ := Nat.exists_eq_add_of_le' h
  have hpeak := two_mul_peak m
  have hless : (m + 3 - 1) * (m + 3 - 2) = (m + 2) * (m + 1) := rfl
  omega

end Phrase

/-- A phrase by itself is read by one call, if its levels can be opened. -/
theorem expression_phrase {c : Phrase} (config : Config) (hc : c.WellBound .standard)
    (hfits : c.levels ≤ config.maxDepth) :
    (Parser.ofSource (Tape.mk c.yield) config).expression .lowest =
      (some c.erase, (Parser.ofSource (Tape.mk c.yield) config).move c.width) := by
  have hready : Parser.Ready (Parser.ofSource (Tape.mk c.yield) config) config (c.yield ++ []) :=
    Parser.ready_ofSource (by rw [List.append_nil]; exact Tape.gives _) config
  have hstops : Grammar.standard.Stops .lowest .eof := .inr (Power.lowest_le _)
  have hfronts : Parser.Fronts (Parser.ofSource (Tape.mk c.yield) config) c .eof :=
    ⟨rfl, hready.begins_append, hc.tighterThan_lowest.closedBy hstops⟩
  exact (Parser.reached hc).operand hfronts hc.tighterThan_lowest hstops (hready.levels_eq ▸ hfits)

/-- **The greatest height.**  Under a limit of three levels or more, an expression that one
call reads with all its levels to open is never higher than half the product of the two
numbers below the limit, and two.  This holds over every source, one without end included, and
at every power.  Some tokens are read into an expression that is as high as this, by the
call and as a whole program, and there is nothing to complain of. -/
theorem greatest_height_expression (config : Config) (hlimit : 3 ≤ config.maxDepth) :
    let greatest := (config.maxDepth - 1) * (config.maxDepth - 2) / 2 + 2
    (∀ {σ : Type} [Source σ] (p : Parser σ) (b : Power) (e : Expr), p.grammar = .standard →
      p.config = config → p.depth = 0 → (p.expression b).1 = some e → e.height ≤ greatest) ∧
    ∃ (ts : List Token) (e : Expr),
      let call := (Parser.ofSource (Tape.mk ts) config).expression .lowest
      let run := parse (Tape.mk ts) config
      e.height = greatest ∧ call.1 = some e ∧ call.2.diagnostics.isEmpty = true ∧
        run.program.trees = [e] ∧ run.diagnostics.isEmpty = true := by
  intro greatest
  have hgreatest : Phrase.peak config.maxDepth = greatest := Phrase.peak_eq hlimit
  refine ⟨fun p b e hgrammar hconfig hdepth hread => ?_, ?_⟩
  · have hlevels : p.levels = config.maxDepth := by
      rw [Parser.levels, hconfig, hdepth, Nat.sub_zero]
    rw [← hgreatest, ← hlevels]
    exact Parser.height_expression_le hgrammar hread
  · obtain ⟨n, hn⟩ : ∃ n, config.maxDepth = n + 1 := ⟨config.maxDepth - 1, by omega⟩
    obtain ⟨hwell, hlevels, hheight⟩ := Phrase.peaks_tower n
    have hfits : (Phrase.tower n).levels ≤ config.maxDepth := hn ▸ hlevels
    obtain ⟨hlist, hclean⟩ := parse_phrase config hwell hfits
    have hcall := expression_phrase config hwell hfits
    refine ⟨(Phrase.tower n).yield, (Phrase.tower n).erase, ?_, ?_, ?_, hlist, hclean⟩
    · rw [hheight, ← hn, hgreatest]
    · rw [hcall]
    · rw [hcall, Parser.diagnostics_move]
      rfl

/-- Under a limit of five the tower for five is read up to a terminator, with the height eight, and
nothing that is read is higher. -/
theorem greatest_height_expression_five :
    let config : Config := ⟨true, 5⟩
    let c := Phrase.tower 4
    let p := Parser.ofSource (Tape.mk (c.yield ++ [⟨.semicolon, ";"⟩])) config
    3 ≤ config.maxDepth ∧ (config.maxDepth - 1) * (config.maxDepth - 2) / 2 + 2 = 8 ∧
      p.grammar = .standard ∧ p.config = config ∧ p.depth = 0 ∧
      (p.expression .lowest).1 = some c.erase ∧ c.erase.height ≤ 8 ∧
      ∃ (ts : List Token) (e : Expr),
        e.height = 8 ∧ (parse (Tape.mk ts) config).program.trees = [e] := by
  intro config c p
  have hlimit : 3 ≤ config.maxDepth := by decide
  have hgreatest : (config.maxDepth - 1) * (config.maxDepth - 2) / 2 + 2 = 8 := by decide
  have hread : (p.expression .lowest).1 = some c.erase := by decide +kernel
  obtain ⟨hbound, ts, e, hheight, -, -, htrees, -⟩ := greatest_height_expression config hlimit
  have hle := hbound p .lowest c.erase rfl rfl rfl hread
  rw [hgreatest] at hle hheight
  exact ⟨hlimit, hgreatest, rfl, rfl, rfl, hread, hle, ts, e, hheight, htrees⟩

end Frontend
