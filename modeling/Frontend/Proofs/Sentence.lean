/-
# `Frontend.Proofs.Sentence` — the programs that are accepted

A list of tokens is accepted if it is parsed without a problem.  The lists that
are accepted are those that split into sentences, which are statements as they
stand in the tokens, and this is said without the parser: `Sentence` has one
rule for each form of statement, and what an expression may be is left to the
phrases that are well bound.

A terminator may be left out.  So a sentence does not say by itself where it
ends, and two conditions look at what follows: an expression without a
terminator goes on if it can, and a `return` without a value and without a
terminator is the last statement.

Where values are passed over, a `let` or a `return` is whatever runs on to the
next terminator, and no phrase is asked for.

The limit plays no part as long as there are as many levels as tokens.
-/
import Frontend.Proofs.Accounting
import Frontend.Proofs.RoundTrip

namespace Frontend

/-! ## Sentences -/

/-- What follows an expression in its statement, and what is left of it when the
statement is done.  Left without a terminator, the expression cannot go on. -/
inductive Closes : List Token → List Token → Prop where
  | terminator {u : Token} {rest : List Token} (hu : u.kind = .semicolon) : Closes (u :: rest) rest
  | bare {rest : List Token}
      (h : ∀ u ∈ rest.head?, u.kind ≠ .semicolon ∧ Grammar.standard.joining u.kind = none) :
      Closes rest rest

/-- What is passed over up to the next terminator or to the end, and what is left. -/
inductive Passes : List Token → List Token → Prop where
  | terminator {u : Token} {rest : List Token} (hu : u.kind = .semicolon) : Passes (u :: rest) rest
  | last : Passes [] []
  | token {t : Token} {ts rest : List Token} (ht : t.kind ≠ .semicolon) (h : Passes ts rest) :
      Passes (t :: ts) rest

/-- A statement stands at the front of a list of tokens, with others left behind it.
The first argument says whether values are read. -/
inductive Sentence : Bool → List Token → Stmt → List Token → Prop where
  | letValue {word name mark : Token} {c : Phrase} {ts rest : List Token}
      (hword : word.kind = .kwLet) (hname : name.kind = .identifier) (hmark : mark.kind = .assign)
      (hc : c.WellBound .standard) (h : Closes ts rest) :
      Sentence true (word :: name :: mark :: (c.yield ++ ts))
        (.letStmt word (.ofToken name) (some c.erase)) rest
  | letPassed {word name mark : Token} {ts rest : List Token}
      (hword : word.kind = .kwLet) (hname : name.kind = .identifier) (hmark : mark.kind = .assign)
      (h : Passes ts rest) :
      Sentence false (word :: name :: mark :: ts) (.letStmt word (.ofToken name) none) rest
  | returnEmpty {word u : Token} {rest : List Token} (hword : word.kind = .kwReturn)
      (hu : u.kind = .semicolon) : Sentence true (word :: u :: rest) (.returnStmt word none) rest
  | returnLast {word : Token} (hword : word.kind = .kwReturn) :
      Sentence true [word] (.returnStmt word none) []
  | returnValue {word : Token} {c : Phrase} {ts rest : List Token} (hword : word.kind = .kwReturn)
      (hc : c.WellBound .standard) (h : Closes ts rest) :
      Sentence true (word :: (c.yield ++ ts)) (.returnStmt word (some c.erase)) rest
  | returnPassed {word : Token} {ts rest : List Token} (hword : word.kind = .kwReturn)
      (h : Passes ts rest) : Sentence false (word :: ts) (.returnStmt word none) rest
  | expr {readValues : Bool} {t : Token} {us ts rest : List Token} {c : Phrase}
      (hc : c.WellBound .standard) (hfirst : c.yield = t :: us) (h : Closes ts rest) :
      Sentence readValues (c.yield ++ ts) (.exprStmt t c.erase) rest

/-- A list of tokens splits into statements. -/
inductive Sentences (readValues : Bool) : List Token → List Stmt → Prop where
  | nil : Sentences readValues [] []
  | cons {s : Stmt} {ss : List Stmt} {ts rest : List Token} (h : Sentence readValues ts s rest)
      (hrest : Sentences readValues rest ss) : Sentences readValues ts (s :: ss)

theorem Closes.isSuffix {ts rest : List Token} (h : Closes ts rest) : rest <:+ ts := by
  cases h with
  | terminator => exact List.suffix_cons _ _
  | bare => exact List.suffix_refl _

theorem Passes.isSuffix {ts rest : List Token} (h : Passes ts rest) : rest <:+ ts := by
  induction h with
  | terminator => exact List.suffix_cons _ _
  | last => exact List.suffix_refl _
  | token _ _ ih => exact ih.trans (List.suffix_cons _ _)

theorem Phrase.yield_ne_nil (c : Phrase) : c.yield ≠ [] := by
  intro h
  have hlength := c.length_yield
  rw [h] at hlength
  cases hlength

/-- A sentence has a token of its own, and what is left is the rest of the list. -/
theorem Sentence.exists_cons {readValues : Bool} {ts rest : List Token} {s : Stmt}
    (h : Sentence readValues ts s rest) : ∃ t us, ts = t :: us ∧ rest <:+ us := by
  cases h with
  | letValue _ _ _ _ h =>
    refine ⟨_, _, rfl, ?_⟩
    exact h.isSuffix.trans ((List.suffix_append _ _).trans
      ((List.suffix_cons _ _).trans (List.suffix_cons _ _)))
  | letPassed _ _ _ h =>
    exact ⟨_, _, rfl, h.isSuffix.trans ((List.suffix_cons _ _).trans (List.suffix_cons _ _))⟩
  | returnEmpty => exact ⟨_, _, rfl, List.suffix_cons _ _⟩
  | returnLast => exact ⟨_, _, rfl, List.suffix_refl _⟩
  | returnValue _ _ h => exact ⟨_, _, rfl, h.isSuffix.trans (List.suffix_append _ _)⟩
  | returnPassed _ h => exact ⟨_, _, rfl, h.isSuffix⟩
  | expr _ hfirst h =>
    refine ⟨_, _, by rw [hfirst, List.cons_append], ?_⟩
    exact h.isSuffix.trans (List.suffix_append _ _)

/-- What a sentence leaves has no more tokens, and no others. -/
theorem Sentence.rest_spec {readValues : Bool} {ts rest : List Token} {s : Stmt}
    (h : Sentence readValues ts s rest) (hts : ∀ t ∈ ts, t.kind ≠ .eof) :
    (∀ t ∈ rest, t.kind ≠ .eof) ∧ rest.length ≤ ts.length := by
  obtain ⟨t, us, rfl, hsuffix⟩ := h.exists_cons
  refine ⟨fun u hu => hts u (List.mem_cons_of_mem t (hsuffix.subset hu)), ?_⟩
  exact Nat.le_succ_of_le hsuffix.length_le

/-! ## The kinds of the standard table -/

namespace Grammar

theorem opening_standard_ne {k : Kind} {o : Opening} (h : standard.opening k = some o) :
    k ≠ .semicolon ∧ k ≠ .eof ∧ standard.form k = none := by
  revert h
  cases k <;> simp [standard]

theorem joining_standard_ne {k : Kind} {j : Joining} (h : standard.joining k = some j) :
    k ≠ .semicolon ∧ k ≠ .eof := by
  revert h
  cases k <;> simp [standard]

/-- An expression read at the lowest power ends before what joins nothing. -/
theorem stops_lowest_standard {t : Token} :
    standard.Stops .lowest t ↔ t.kind = .semicolon ∨ standard.joining t.kind = none := by
  refine or_congr_right ?_
  cases t.kind <;> simp [standard, Power.le_def, Power.rank]

end Grammar

/-- What follows an expression closes it if the expression stops there, and only then. -/
theorem exists_closes_iff {ts : List Token} :
    (∃ rest, Closes ts rest) ↔ Grammar.standard.Stops .lowest (ts.head?.getD .eof) := by
  rw [Grammar.stops_lowest_standard]
  constructor
  · rintro ⟨rest, hu | hbare⟩
    · next hu => exact .inl hu
    · cases ts with
      | nil => exact .inr rfl
      | cons u ts => exact .inr (hbare u rfl).2
  · intro h
    cases ts with
    | nil => exact ⟨[], .bare (by rintro u ⟨⟩)⟩
    | cons u ts =>
      by_cases hu : u.kind = .semicolon
      · exact ⟨ts, .terminator hu⟩
      · refine ⟨u :: ts, .bare ?_⟩
        rintro _ ⟨⟩
        exact ⟨hu, h.resolve_left hu⟩

/-- No terminator and no end of input is part of a phrase. -/
theorem Phrase.WellBound.kind_ne {c : Phrase} (h : c.WellBound .standard) :
    ∀ t ∈ c.yield, t.kind ≠ .semicolon ∧ t.kind ≠ .eof := by
  induction c with
  | ident t =>
    obtain ⟨hs, he, -⟩ := Grammar.opening_standard_ne h
    exact List.forall_mem_singleton.2 ⟨hs, he⟩
  | integer t v =>
    obtain ⟨hs, he, -⟩ := Grammar.opening_standard_ne h.1
    exact List.forall_mem_singleton.2 ⟨hs, he⟩
  | unary t x ih =>
    obtain ⟨hs, he, -⟩ := Grammar.opening_standard_ne h.1
    exact List.forall_mem_cons.2 ⟨⟨hs, he⟩, ih h.2.1⟩
  | binary t l r ihl ihr =>
    obtain ⟨hj, hl, hr, -⟩ := h
    exact List.forall_mem_append.2
      ⟨ihl hl, List.forall_mem_cons.2 ⟨Grammar.joining_standard_ne hj, ihr hr⟩⟩
  | group o u x ih =>
    obtain ⟨ho, hu, hx⟩ := h
    obtain ⟨hs, he, -⟩ := Grammar.opening_standard_ne ho
    refine List.forall_mem_cons.2 ⟨⟨hs, he⟩, List.forall_mem_append.2 ⟨ih hx, ?_⟩⟩
    exact List.forall_mem_singleton.2 (by rw [hu]; decide)

/-- A phrase begins with a token that begins no other form of statement. -/
theorem Phrase.WellBound.form_head {c : Phrase} (h : c.WellBound .standard) {t : Token}
    {us : List Token} (ht : c.yield = t :: us) : Grammar.standard.form t.kind = none := by
  induction c generalizing us with
  | ident v =>
    obtain ⟨rfl, -⟩ := List.cons.inj ht
    exact (Grammar.opening_standard_ne h).2.2
  | integer v i =>
    obtain ⟨rfl, -⟩ := List.cons.inj ht
    exact (Grammar.opening_standard_ne h.1).2.2
  | unary v x ih =>
    obtain ⟨rfl, -⟩ := List.cons.inj ht
    exact (Grammar.opening_standard_ne h.1).2.2
  | binary v l r ihl ihr =>
    obtain ⟨w, ws, hw⟩ := List.exists_cons_of_ne_nil l.yield_ne_nil
    rw [yield, hw, List.cons_append] at ht
    obtain ⟨rfl, -⟩ := List.cons.inj ht
    exact ihl h.2.1 hw
  | group o u x ih =>
    obtain ⟨rfl, -⟩ := List.cons.inj ht
    exact (Grammar.opening_standard_ne h.1).2.2

/-- A phrase among so many tokens needs no more levels. -/
theorem Phrase.levels_le_of_sublist {c : Phrase} {ts : List Token} {n : Nat}
    (h : c.yield.Sublist ts) (hn : ts.length ≤ n) : c.levels ≤ n :=
  Nat.le_trans c.levels_le_length_yield (Nat.le_trans h.length_le hn)

namespace Parser

variable {σ : Type}

/-! ## The parts of a sentence -/

section Parts

variable [Source σ] {p q : Parser σ} {config : Config} {ts us rest : List Token} {c : Phrase}

theorem Ready.drop (h : Ready p config ts) (n : Nat) : Ready (p.move n) config (ts.drop n) where
  grammar_eq := by rw [grammar_move, h.grammar_eq]
  config_eq := by rw [config_move, h.config_eq]
  depth_eq := by rw [depth_move, h.depth_eq]
  holds := h.holds.drop n

/-- What begins a list that is held is the beginning of the list, unless it goes on
behind the end. -/
theorem Holds.eq_append (h : p.Holds ts) (hus : p.Begins us) (hne : ∀ u ∈ us, u.kind ≠ .eof) :
    ∃ rest, ts = us ++ rest := by
  induction us generalizing p ts with
  | nil => exact ⟨ts, rfl⟩
  | cons u us ih =>
    obtain ⟨hu, hus⟩ := begins_cons.1 hus
    obtain ⟨hkind, hne⟩ := List.forall_mem_cons.1 hne
    cases ts with
    | nil => exact absurd (congrArg Token.kind (hu.symm.trans h.current_eq)) hkind
    | cons t ts =>
      obtain ⟨rest, rfl⟩ := ih (h.drop 1) hus hne
      exact ⟨rest, by rw [← hu, h.current_eq]; rfl⟩

/-- A current token that is not the end of input is the first of those to come. -/
theorem Ready.exists_cons (h : Ready p config ts) (hne : p.current.kind ≠ .eof) :
    ∃ us, ts = p.current :: us ∧ Ready p.advance config us := by
  obtain ⟨us, rfl⟩ := h.holds.eq_append (begins_singleton.2 rfl) (List.forall_mem_singleton.2 hne)
  exact ⟨us, rfl, h.advance⟩

/-- The token behind a phrase, which may be the end of input. -/
theorem Ready.begins_append (h : Ready p config (us ++ ts)) :
    p.Begins (us ++ [ts.head?.getD .eof]) := by
  cases ts with
  | nil =>
    have hholds : p.Holds ((us ++ [.eof]) ++ []) := by
      rw [List.append_nil] at h ⊢
      exact h.holds.concat_eof
    exact hholds.begins
  | cons t ts =>
    have hholds : p.Holds ((us ++ [t]) ++ ts) := by
      rw [List.append_assoc]
      exact h.holds
    exact hholds.begins

/-- Behind a phrase that was read the terminator is taken, and nothing else is. -/
theorem Ready.closes (h : Ready p config (c.yield ++ ts)) (hc : Closes ts rest) :
    ∃ k, (p.move c.width).takeTerminator = p.move k ∧ Ready (p.move (k + 1)) config rest := by
  have hrest : Ready (p.move (c.width + 1)) config ts := c.length_yield ▸ h.move
  rw [takeTerminator, peek_move, hrest.holds.current_eq]
  cases hc with
  | terminator hu =>
    have hready := hrest.advance
    rw [advance_move] at hready
    exact ⟨c.width + 1, (if_pos hu).trans (advance_move p _), hready⟩
  | bare hbare =>
    refine ⟨c.width, if_neg ?_, hrest⟩
    cases ts with
    | nil => decide
    | cons u ts => exact (hbare u rfl).1

/-- A phrase that stands in its statement is closed by the token behind it. -/
theorem Ready.fronts_of_closes (h : Ready p config (c.yield ++ ts)) (hc : c.WellBound .standard)
    (hcloses : Closes ts rest) : Fronts p c (ts.head?.getD .eof) where
  grammar_eq := h.grammar_eq
  begins := h.begins_append
  closed := hc.tighterThan_lowest.closedBy (exists_closes_iff.1 ⟨rest, hcloses⟩)

/-- A phrase that stands in its statement is read as its value. -/
theorem Ready.value_of_phrase (h : Ready p config (c.yield ++ ts)) (hc : c.WellBound .standard)
    (hcloses : Closes ts rest) (hfits : c.levels ≤ config.maxDepth) :
    ∃ k, p.value = (some c.erase, p.move k) ∧ Ready (p.move (k + 1)) config rest := by
  have hread : p.expression .lowest = (some c.erase, p.move c.width) :=
    (reached hc).operand (h.fronts_of_closes hc hcloses) hc.tighterThan_lowest
      (exists_closes_iff.1 ⟨rest, hcloses⟩) (h.levels_eq ▸ hfits)
  obtain ⟨k, hk, hready⟩ := h.closes hcloses
  exact ⟨k, by rw [value, hread, ← hk], hready⟩

/-- It is read only if its levels can be opened. -/
theorem Ready.levels_le_of_value (h : Ready p config (c.yield ++ ts)) (hc : c.WellBound .standard)
    (hcloses : Closes ts rest) (hv : p.value.1 ≠ none) : c.levels ≤ config.maxDepth :=
  h.levels_eq ▸ (h.fronts_of_closes hc hcloses).levels_le hc hc.tighterThan_lowest hv

/-- Where a phrase begins no statement ends, and none of another form begins. -/
theorem Ready.current_of_phrase (h : Ready p config (c.yield ++ ts)) (hc : c.WellBound .standard) :
    p.current ∈ c.yield.head? ∧ p.atTerminator = false ∧ p.grammar.form p.current.kind = none := by
  obtain ⟨t, us, ht⟩ := List.exists_cons_of_ne_nil c.yield_ne_nil
  have hne := hc.kind_ne t (ht ▸ List.mem_cons_self)
  rw [ht, List.cons_append] at h
  rw [ht, atTerminator, Token.is, Token.is, h.current_eq, h.grammar_eq]
  exact ⟨rfl, by simp [hne.1, hne.2], hc.form_head ht⟩

/-- A value that is read is a phrase that stands in its statement. -/
theorem Ready.phrase_of_value (h : Ready p config ts) (hv : p.value.1 ≠ none) :
    ∃ (c : Phrase) (us rest : List Token) (k : Nat),
      ts = c.yield ++ us ∧ c.WellBound .standard ∧ Closes us rest ∧
        p.value = (some c.erase, p.move k) ∧ Ready (p.move (k + 1)) config rest := by
  have hg := h.grammar_eq
  rcases outcome_value p (hg ▸ Grammar.joins_standard) with ⟨c, hc, hstops, hread⟩ | ⟨q, hread, -⟩
  · have hwell : c.WellBound .standard := hg ▸ hc.wellBound
    obtain ⟨us, rfl⟩ := h.holds.eq_append hc.begins fun t ht => (hwell.kind_ne t ht).2
    have hpeek : (p.move c.width).peek = us.head?.getD .eof := by
      rw [peek_move, ← c.length_yield]
      exact h.move.holds.current_eq
    rw [hg, hpeek] at hstops
    obtain ⟨rest, hcloses⟩ := exists_closes_iff.2 hstops
    obtain ⟨k, hk, hready⟩ := h.closes hcloses
    exact ⟨c, us, rest, k, rfl, hwell, hcloses, by rw [hread, hk], hready⟩
  · exact absurd (congrArg Prod.fst hread) hv

theorem Ready.skips_of_passes (h : Ready p config ts) (hts : ∀ t ∈ ts, t.kind ≠ .eof)
    (hp : Passes ts rest) : ∃ k, Skips p (p.move k) ∧ Ready (p.move (k + 1)) config rest := by
  induction hp generalizing p with
  | terminator hu =>
    refine ⟨0, .here ?_, h.advance⟩
    simp [atTerminator, Token.is, h.current_eq, hu]
  | last =>
    refine ⟨0, .here ?_, h.drop 1⟩
    rw [atTerminator, h.holds.current_eq]
    rfl
  | token ht _ ih =>
    obtain ⟨hne, hts⟩ := List.forall_mem_cons.1 hts
    obtain ⟨k, hk, hready⟩ := ih h.advance hts
    refine ⟨k + 1, .next ?_ hk, hready⟩
    simp [atTerminator, Token.is, h.current_eq, ht, hne]

theorem Ready.passes_of_skips (h : Ready p config ts) (hts : ∀ t ∈ ts, t.kind ≠ .eof)
    (hq : Skips p q) :
    ∃ k rest, q = p.move k ∧ Passes ts rest ∧ Ready (p.move (k + 1)) config rest := by
  induction hq generalizing ts with
  | @here p hend =>
    cases ts with
    | nil => exact ⟨0, [], rfl, .last, h.drop 1⟩
    | cons t ts =>
      have hne : t.kind ≠ .eof := hts t List.mem_cons_self
      simp only [atTerminator, Token.is, h.current_eq, Bool.or_eq_true, beq_iff_eq] at hend
      exact ⟨0, ts, rfl, .terminator (hend.resolve_right hne), h.advance⟩
  | @next p q hopen _ ih =>
    simp only [atTerminator, Token.is, Bool.or_eq_false_iff, beq_eq_false_iff_ne] at hopen
    obtain ⟨us, rfl, hadvance⟩ := h.exists_cons hopen.2
    obtain ⟨k, rest, rfl, hpasses, hready⟩ := ih hadvance (List.forall_mem_cons.1 hts).2
    exact ⟨k + 1, rest, rfl, .token hopen.1 hpasses, hready⟩

end Parts

/-! ## One statement -/

section Statements

variable [Source σ] {p q : Parser σ} {config : Config} {ts rest : List Token}

section Forms

variable {word name mark t : Token} {us : List Token} {c : Phrase}

theorem Ready.letForm (h : Ready p config (word :: ts)) (hword : word.kind = .kwLet) :
    p.grammar.form p.current.kind = some .letForm := by
  rw [h.grammar_eq, h.current_eq, hword]
  rfl

theorem Ready.returnForm (h : Ready p config (word :: ts)) (hword : word.kind = .kwReturn) :
    p.grammar.form p.current.kind = some .returnForm := by
  rw [h.grammar_eq, h.current_eq, hword]
  rfl

/-- A `let` whose value is passed over runs on to the terminator. -/
theorem Ready.dispatch_letPassed (h : Ready p config (word :: name :: mark :: ts))
    (hts : ∀ t ∈ word :: name :: mark :: ts, t.kind ≠ .eof) (hword : word.kind = .kwLet)
    (hname : name.kind = .identifier) (hmark : mark.kind = .assign)
    (hreads : config.readValues = false) (hpasses : Passes ts rest) :
    ∃ k, Dispatch p (some (.letStmt word (.ofToken name) none)) (p.move k) ∧
      Ready (p.move (k + 1)) config rest := by
  have hfront : Ready (p.move 2) config (mark :: ts) := h.advance.advance
  obtain ⟨k, hskips, hready⟩ := hfront.skips_of_passes
    (List.forall_mem_cons.1 (List.forall_mem_cons.1 hts).2).2
    (.token (by rw [hmark]; decide) hpasses)
  have hd := Dispatch.letSkip (h.letForm hword) (h.peek_eq ▸ hname) (h.advance.peek_eq ▸ hmark)
    (h.config_eq ▸ hreads) hskips
  simp only [h.current_eq, h.peek_eq, move_move] at hd
  rw [move_move] at hready
  exact ⟨2 + k, hd, hready⟩

/-- So does a `return`, at once if it has none. -/
theorem Ready.dispatch_returnPassed (h : Ready p config (word :: ts))
    (hts : ∀ t ∈ word :: ts, t.kind ≠ .eof) (hword : word.kind = .kwReturn)
    (hbare : config.readValues = false ∨ p.advance.atTerminator = true) (hpasses : Passes ts rest) :
    ∃ k, Dispatch p (some (.returnStmt word none)) (p.move k) ∧
      Ready (p.move (k + 1)) config rest := by
  obtain ⟨k, hskips, hready⟩ := h.advance.skips_of_passes (List.forall_mem_cons.1 hts).2 hpasses
  have hd := Dispatch.returnSkip (h.returnForm hword) (h.config_eq ▸ hbare) hskips
  rw [h.current_eq] at hd
  exact ⟨k + 1, hd, hready⟩

/-- An expression by itself is read in either mode, if its levels can be opened. -/
theorem Ready.dispatch_expr (h : Ready p config (c.yield ++ ts)) (hc : c.WellBound .standard)
    (hfirst : c.yield = t :: us) (hcloses : Closes ts rest) (hfits : c.levels ≤ config.maxDepth) :
    ∃ k, Dispatch p (some (.exprStmt t c.erase)) (p.move k) ∧
      Ready (p.move (k + 1)) config rest := by
  obtain ⟨k, hv, hready⟩ := h.value_of_phrase hc hcloses hfits
  obtain ⟨hcurrent, -, hnone⟩ := h.current_of_phrase hc
  obtain rfl : t = p.current := by
    rw [hfirst] at hcurrent
    exact Option.some.inj hcurrent
  have hd := Dispatch.expr (p := p) (by simp [hnone]) (by simp [hnone])
  simp only [hv, Option.map_some] at hd
  exact ⟨k, hd, hready⟩

end Forms

/-- Every sentence is read as its statement. -/
theorem Ready.dispatch_of_sentence {s : Stmt} (h : Ready p config ts)
    (hts : ∀ t ∈ ts, t.kind ≠ .eof) (hlimit : ts.length ≤ config.maxDepth)
    (hs : Sentence config.readValues ts s rest) :
    ∃ k, Dispatch p (some s) (p.move k) ∧ Ready (p.move (k + 1)) config rest := by
  have hreads : p.config.readValues = config.readValues := by rw [h.config_eq]
  generalize hmode : config.readValues = reads at hs hreads
  cases hs with
  | @letValue word name mark c us _ hword hname hmark hc hcloses =>
    have hsub : c.yield.Sublist (word :: name :: mark :: (c.yield ++ us)) :=
      (((List.sublist_append_left _ _).cons _).cons _).cons _
    have hfront : Ready (p.move 3) config (c.yield ++ us) := h.advance.advance.advance
    obtain ⟨k, hv, hready⟩ := hfront.value_of_phrase hc hcloses
      (Phrase.levels_le_of_sublist hsub hlimit)
    have hd := Dispatch.letValue (h.letForm hword) (h.peek_eq ▸ hname)
      (h.advance.peek_eq ▸ hmark) hreads
    simp only [hv, h.current_eq, h.peek_eq, move_move] at hd
    rw [move_move] at hready
    exact ⟨3 + k, hd, hready⟩
  | letPassed hword hname hmark hpasses =>
    exact h.dispatch_letPassed hts hword hname hmark hmode hpasses
  | returnEmpty hword hu =>
    refine h.dispatch_returnPassed hts hword (.inr ?_) (.terminator hu)
    simp [atTerminator, Token.is, h.advance.current_eq, hu]
  | returnLast hword =>
    refine h.dispatch_returnPassed hts hword (.inr ?_) .last
    rw [atTerminator, h.advance.holds.current_eq]
    rfl
  | @returnValue word c us _ hword hc hcloses =>
    have hsub : c.yield.Sublist (word :: (c.yield ++ us)) := (List.sublist_append_left _ _).cons _
    have hfront : Ready (p.move 1) config (c.yield ++ us) := h.advance
    obtain ⟨k, hv, hready⟩ := hfront.value_of_phrase hc hcloses
      (Phrase.levels_le_of_sublist hsub hlimit)
    have hd := Dispatch.returnValue (h.returnForm hword) hreads (hfront.current_of_phrase hc).2.1
    have hv : p.advance.value = (some c.erase, (p.move 1).move k) := hv
    simp only [hv, h.current_eq, move_move] at hd
    rw [move_move] at hready
    exact ⟨1 + k, hd, hready⟩
  | returnPassed hword hpasses => exact h.dispatch_returnPassed hts hword (.inl hmode) hpasses
  | expr hc hfirst hcloses =>
    exact h.dispatch_expr hc hfirst hcloses
      (Phrase.levels_le_of_sublist (List.sublist_append_left _ _) hlimit)

theorem Ready.exists_let (h : Ready p config ts) (hne : p.current.kind ≠ .eof)
    (hname : p.peek.kind = .identifier) (hmark : p.advance.peek.kind = .assign) :
    ∃ us, ts = p.current :: p.peek :: p.advance.peek :: us ∧ Ready (p.move 3) config us := by
  have hname' : p.advance.current.kind ≠ .eof := fun he => by cases hname.symm.trans he
  have hmark' : p.advance.advance.current.kind ≠ .eof := fun he => by cases hmark.symm.trans he
  obtain ⟨us, rfl, hus⟩ := h.exists_cons hne
  obtain ⟨vs, rfl, hvs⟩ := hus.exists_cons hname'
  obtain ⟨ws, rfl, hws⟩ := hvs.exists_cons hmark'
  exact ⟨ws, rfl, hws⟩

/-- A statement that gave no cause for complaint is a sentence. -/
theorem Ready.sentence_of_dispatch {s : Option Stmt} (h : Ready p config ts)
    (hts : ∀ t ∈ ts, t.kind ≠ .eof) (hne : p.current.kind ≠ .eof) (hd : Dispatch p s q)
    (hclean : q.diagnostics.size = p.diagnostics.size) :
    ∃ (t : Stmt) (k : Nat) (rest : List Token), s = some t ∧ q = p.move k ∧
      Sentence config.readValues ts t rest ∧ Ready (p.move (k + 1)) config rest := by
  have hfault : ¬ p.Faulty s :=
    (hd.accounts (h.grammar_eq ▸ Grammar.joins_standard)).not_of_size_eq hclean
  have hgrammar := h.grammar_eq
  obtain rfl := h.config_eq
  cases hd with
  | letNoName => exact absurd (.inl rfl) hfault
  | letNoMark => exact absurd (.inl rfl) hfault
  | letValue hf hname hmark hreads =>
    rw [hgrammar] at hf
    obtain ⟨us, rfl, hus⟩ := h.exists_let hne hname hmark
    have hvalue : (p.move 3).value.1 ≠ none := by
      intro hnone
      rw [hnone] at hfault
      exact hfault (faulty_some.2 hreads)
    obtain ⟨c, xs, rest, k, rfl, hc, hcloses, hv, hready⟩ := hus.phrase_of_value hvalue
    rw [move_move] at hv hready
    rw [hv, hreads]
    refine ⟨_, 3 + k, rest, rfl, rfl, ?_, hready⟩
    exact .letValue (Grammar.form_standard_eq_some.1 hf) hname hmark hc hcloses
  | letSkip hf hname hmark hreads hq =>
    rw [hgrammar] at hf
    obtain ⟨us, rfl, hus⟩ := h.exists_let hne hname hmark
    have hus' : ∀ t ∈ us, t.kind ≠ .eof := fun t ht => hts t (by simp [ht])
    obtain ⟨k, rest, rfl, hpasses, hready⟩ := hus.passes_of_skips hus' (hq.behind_mark hmark)
    rw [move_move] at hready
    rw [hreads]
    refine ⟨_, 3 + k, rest, rfl, move_move p 3 k, ?_, hready⟩
    exact .letPassed (Grammar.form_standard_eq_some.1 hf) hname hmark hpasses
  | returnValue hf hreads hopen =>
    rw [hgrammar] at hf
    obtain ⟨us, rfl, hus⟩ := h.exists_cons hne
    have hvalue : p.advance.value.1 ≠ none := by
      intro hnone
      rw [hnone] at hfault
      refine hfault (faulty_some.2 ?_)
      show (p.config.readValues && !p.advance.atTerminator) = true
      rw [hreads, hopen]
      rfl
    obtain ⟨c, xs, rest, k, rfl, hc, hcloses, hv, hready⟩ := hus.phrase_of_value hvalue
    rw [hv, hreads]
    refine ⟨_, k + 1, rest, rfl, rfl, ?_, hready⟩
    exact .returnValue (Grammar.form_standard_eq_some.2 hf) hc hcloses
  | returnSkip hf hbare hq =>
    rw [hgrammar] at hf
    have hword := Grammar.form_standard_eq_some.2 hf
    obtain ⟨us, rfl, hus⟩ := h.exists_cons hne
    have hus' := (List.forall_mem_cons.1 hts).2
    obtain ⟨k, rest, rfl, hpasses, hready⟩ := hus.passes_of_skips hus' hq
    refine ⟨_, k + 1, rest, rfl, rfl, ?_, hready⟩
    cases hreads : p.config.readValues with
    | false => exact .returnPassed hword hpasses
    | true =>
      have hend := hbare.resolve_left (by simp [hreads])
      cases hpasses with
      | terminator hu => exact .returnEmpty hword hu
      | last => exact .returnLast hword
      | @token t ts _ ht =>
        simp only [atTerminator, Token.is, hus.current_eq, Bool.or_eq_true, beq_iff_eq] at hend
        exact absurd (hend.resolve_left ht) (hus' t List.mem_cons_self)
  | expr hlet hreturn =>
    have hvalue : p.value.1 ≠ none := by
      intro hnone
      rw [hnone] at hfault
      exact hfault (.inl rfl)
    obtain ⟨c, xs, rest, k, rfl, hc, hcloses, hv, hready⟩ := h.phrase_of_value hvalue
    obtain ⟨t, us, ht⟩ := List.exists_cons_of_ne_nil c.yield_ne_nil
    obtain ⟨hcurrent, -⟩ := h.current_of_phrase hc
    rw [ht] at hcurrent
    obtain rfl := Option.some.inj hcurrent
    rw [hv]
    exact ⟨_, k, rest, rfl, rfl, .expr hc ht hcloses, hready⟩

end Statements

/-! ## Whole programs -/

section Runs

variable [FiniteSource σ] {p : Parser σ} {config : Config} {ts : List Token}

theorem Ready.statements_of_sentences {ss : List Stmt} (h : Ready p config ts)
    (hts : ∀ t ∈ ts, t.kind ≠ .eof) (hlimit : ts.length ≤ config.maxDepth)
    (hs : Sentences config.readValues ts ss) :
    p.statements.1 = ss ∧ p.statements.2.diagnostics = p.diagnostics := by
  induction hs generalizing p with
  | nil =>
    rw [statements_of_eof (congrArg Token.kind h.holds.current_eq)]
    exact ⟨rfl, rfl⟩
  | @cons s ss ts rest hsentence _ ih =>
    obtain ⟨k, hd, hready⟩ := h.dispatch_of_sentence hts hlimit hsentence
    obtain ⟨hrest, hlength⟩ := hsentence.rest_spec hts
    obtain ⟨t, us, rfl, -⟩ := hsentence.exists_cons
    have hne : p.current.kind ≠ .eof := by
      rw [h.current_eq]
      exact hts t List.mem_cons_self
    obtain ⟨hlist, hdiagnostics⟩ := ih hready hrest (Nat.le_trans hlength hlimit)
    rw [statements_of_ne_eof hne, hd.statement_eq, advance_move, hlist, hdiagnostics,
      diagnostics_move]
    exact ⟨rfl, rfl⟩

theorem sentences_of_statements (p : Parser σ) :
    ∀ ts, Ready p config ts → (∀ t ∈ ts, t.kind ≠ .eof) →
      p.statements.2.diagnostics.size = p.diagnostics.size →
        Sentences config.readValues ts p.statements.1 := by
  fun_induction statements p with
  | case1 p hend =>
    intro ts h hts _
    cases ts with
    | nil => exact .nil
    | cons t ts => exact absurd (h.current_eq ▸ hend) (hts t List.mem_cons_self)
  | case2 p hne s rest ih =>
    intro ts h hts hclean
    rw [← statements_of_ne_eof hne] at hclean
    obtain ⟨hfirst, hlater⟩ := clean_of_statements hne hclean
    obtain ⟨t, k, us, hs, hq, hsentence, hready⟩ :=
      h.sentence_of_dispatch hts hne (dispatch_statement p) hfirst
    rw [← advance_move, ← hq] at hready
    have hrest := ih us hready (hsentence.rest_spec hts).1 hlater
    show Sentences config.readValues ts (s.1.toList ++ rest.1)
    rw [hs]
    exact .cons hsentence hrest

end Runs

end Parser

/-- **The programs that are accepted.**  With as many levels as there are tokens, a
list of tokens is parsed without a problem exactly if it splits into sentences, and
then the program is the statements of these sentences in order. -/
theorem parse_isEmpty_iff_sentences (ts : List Token) (hts : ∀ t ∈ ts, t.kind ≠ .eof)
    (config : Config) (hlimit : ts.length ≤ config.maxDepth) :
    let run := parse (Tape.mk ts) config
    (run.diagnostics.isEmpty = true ↔ ∃ ss, Sentences config.readValues ts ss) ∧
      ∀ ss, Sentences config.readValues ts ss → run.program.statements = ss := by
  intro run
  have hready : Parser.Ready (Parser.ofSource (Tape.mk ts) config) config ts :=
    ⟨rfl, rfl, rfl, Parser.holds_ofSource (Tape.gives ts) config⟩
  refine ⟨⟨fun hempty => ?_, ?_⟩, fun ss hs => ?_⟩
  · exact ⟨_, Parser.sentences_of_statements _ ts hready hts (Diagnostics.isEmpty_iff.1 hempty)⟩
  · rintro ⟨ss, hs⟩
    exact congrArg Diagnostics.isEmpty (hready.statements_of_sentences hts hlimit hs).2
  · exact (hready.statements_of_sentences hts hlimit hs).1

/-- `let x = - a * ( b ) return ; c return` is four statements where values are read.
Where they are passed over the `let` runs on to the terminator, and there are three. -/
theorem parse_sentences_in_both_modes :
    let word : Token := ⟨.kwReturn, "return"⟩
    let a : Phrase := .ident ⟨.identifier, "a"⟩
    let b : Phrase := .ident ⟨.identifier, "b"⟩
    let c : Phrase := .ident ⟨.identifier, "c"⟩
    let product : Phrase := .binary ⟨.asterisk, "*"⟩ (.unary ⟨.minus, "-"⟩ a)
      (.group ⟨.openParen, "("⟩ ⟨.closeParen, ")"⟩ b)
    let ts : List Token := ⟨.kwLet, "let"⟩ :: ⟨.identifier, "x"⟩ :: ⟨.assign, "="⟩ ::
      (product.yield ++ [word, ⟨.semicolon, ";"⟩, ⟨.identifier, "c"⟩, word])
    let bind (v : Option Expr) : Stmt :=
      .letStmt ⟨.kwLet, "let"⟩ (.ofToken ⟨.identifier, "x"⟩) v
    let last : List Stmt := [.exprStmt ⟨.identifier, "c"⟩ c.erase, .returnStmt word none]
    (∀ t ∈ ts, t.kind ≠ .eof) ∧ ts.length ≤ 13 ∧
      Sentences true ts (bind (some product.erase) :: .returnStmt word none :: last) ∧
      Sentences false ts (bind none :: last) ∧
      (parse (Tape.mk ts) ⟨true, 13⟩).diagnostics.isEmpty = true ∧
      (parse (Tape.mk ts) ⟨true, 13⟩).program.statements =
        bind (some product.erase) :: .returnStmt word none :: last ∧
      (parse (Tape.mk ts) ⟨false, 13⟩).diagnostics.isEmpty = true ∧
      (parse (Tape.mk ts) ⟨false, 13⟩).program.statements = bind none :: last := by
  intro word a b c product ts bind last
  have hts : ∀ t ∈ ts, t.kind ≠ .eof := by decide
  have hlimit : ts.length ≤ 13 := by decide
  have hname (readValues : Bool) : Sentence readValues [⟨.identifier, "c"⟩, word]
      (.exprStmt ⟨.identifier, "c"⟩ c.erase) [word] :=
    .expr (c := c) (by decide) rfl (.bare (by decide))
  have hvalue : Sentence true ts (bind (some product.erase))
      [word, ⟨.semicolon, ";"⟩, ⟨.identifier, "c"⟩, word] :=
    .letValue (c := product) rfl rfl rfl (by decide) (.bare (by decide))
  have hread : Sentences true ts (bind (some product.erase) :: .returnStmt word none :: last) :=
    .cons hvalue <| .cons (.returnEmpty rfl rfl) <| .cons (hname true) <|
      .cons (.returnLast rfl) .nil
  have hpassed : Sentences false ts (bind none :: last) := by
    refine .cons (.letPassed rfl rfl rfl ?_) <|
      .cons (hname false) <| .cons (.returnPassed rfl .last) .nil
    repeat refine .token (by decide) ?_
    exact .terminator rfl
  obtain ⟨htrue, hlist⟩ := parse_isEmpty_iff_sentences ts hts ⟨true, 13⟩ hlimit
  obtain ⟨hfalse, hlist'⟩ := parse_isEmpty_iff_sentences ts hts ⟨false, 13⟩ hlimit
  exact ⟨hts, hlimit, hread, hpassed, htrue.2 ⟨_, hread⟩, hlist _ hread, hfalse.2 ⟨_, hpassed⟩,
    hlist' _ hpassed⟩

end Frontend
