/-
# `Frontend.Proofs.Conduct` — what a parser keeps, whatever is asked of it

A parser may be used from outside in any order: moved on, told to read an expression with
its levels set to anything, given new entries for its table, sent through a handler at a
token that the handler was not made for.  Some of what holds of it holds through all of
this.

It is enough to know that an operation does one of three things (`step_cases`).  It reads,
and then it only moves on and reports (`Leads`); or it makes an entry in the table; or it
counts levels.  From this each property is kept by one operation, and by a session.  The
window always shows two neighbours of what the source gives (`Follows`), and what was
complained of is not taken back.  No operation but the two that count them changes the
levels that are open.  And a kind that binds joins something (`Grammar.Joins`), so the
parser never has to decide what to do with one that does not.

The last two are said of the functions that are told how many levels are left.  They are
the ones that count the levels in the state and give them back (`expressionCounting_eq`).
-/
import Frontend.Parser.Session
import Frontend.Proofs.Nesting

namespace Frontend

namespace Parser

variable {σ : Type}

/-! ## What an operation does -/

section Step

variable [FiniteSource σ] {p : Parser σ}

theorem leads_openAs (p : Parser σ) (k : Kind) : Leads p (p.openAs k).2 := by
  unfold openAs
  split
  · exact leads_opening leads_expression _ p
  · exact .refl p

theorem leads_joinAs (p : Parser σ) (k : Kind) (left : Expr) (b : Power) :
    Leads p (p.joinAs k left b).2 := by
  unfold joinAs
  split
  · exact leads_joining leads_expression left b _ p
  · exact .refl p

theorem leads_formAs (p : Parser σ) (k : Kind) : Leads p (p.formAs k).2 := by
  unfold formAs
  split
  · exact leads_form _ p
  · exact .refl p

/-- An operation reads, or makes an entry in the table, or counts levels.  Whoever lets a kind
bind lets it join. -/
theorem step_cases (p : Parser σ) (op : Op) :
    Leads p (p.step op).2 ∨
      (∃ g, (p.grammar.Joins → g.Joins) ∧ (p.step op).2 = { p with grammar := g }) ∨
      ((op = .enter ∨ ∃ depth, op = .restore depth) ∧
        ∃ depth, (p.step op).2 = p.restore depth) := by
  cases op with
  | advance => exact .inl (.advance p)
  | expect k => exact .inl (leads_expect p k)
  | skipToTerminator => exact .inl (leads_skipToTerminator p)
  | report e => exact .inl (.report p e)
  | openAs k => exact .inl (leads_openAs p k)
  | joinAs k left b => exact .inl (leads_joinAs p k left b)
  | formAs k => exact .inl (leads_formAs p k)
  | expression b => exact .inl (leads_expression b p)
  | statement => exact .inl (leads_statement p)
  | exprStatement => exact .inl (leads_exprStatement p)
  | program => exact .inl (leads_statements p)
  | setOpening k o => exact .inr (.inl ⟨p.grammar.setOpening k o, fun h => h, rfl⟩)
  | setJoining k b j =>
    exact .inr (.inl ⟨p.grammar.setJoining k b j, fun h => h.setJoining k b j, rfl⟩)
  | setForm k f => exact .inr (.inl ⟨p.grammar.setForm k f, fun h => h, rfl⟩)
  | restore depth => exact .inr (.inr ⟨.inr ⟨depth, rfl⟩, depth, rfl⟩)
  | enter =>
    by_cases hlimit : p.config.maxDepth ≤ p.depth
    · refine .inl ?_
      simp only [step, enter_of_le hlimit]
      exact .report p _
    · refine .inr (.inr ⟨.inl rfl, p.depth + 1, ?_⟩)
      simp only [step, enter_of_lt (Nat.not_le.1 hlimit)]

/-- Only what counts levels changes those that are open. -/
theorem depth_step {op : Op} (henter : op ≠ .enter) (hrestore : ∀ depth, op ≠ .restore depth) :
    (p.step op).2.depth = p.depth := by
  rcases step_cases p op with hleads | ⟨g, -, heq⟩ | ⟨rfl | ⟨depth, rfl⟩, -⟩
  · exact hleads.depth_eq
  · rw [heq]
  · exact absurd rfl henter
  · exact absurd rfl (hrestore depth)

end Step

/-! ## What is kept -/

section Follows

variable [Source σ] {p q r : Parser σ} {m n : Nat}

/-- The second state stands so many tokens further on than the first.  The settings are the same,
no complaint was taken back, and what binds still joins. -/
structure Follows (p : Parser σ) (n : Nat) (q : Parser σ) : Prop where
  current_move (m : Nat) : (q.move m).current = (p.move (n + m)).current
  source_eq : q.source = Source.drop n p.source
  config_eq : q.config = p.config
  complaints : p.diagnostics.toList <+: q.diagnostics.toList
  joins (h : p.grammar.Joins) : q.grammar.Joins

theorem Follows.refl (p : Parser σ) : Follows p 0 p where
  current_move m := by rw [Nat.zero_add]
  source_eq := rfl
  config_eq := rfl
  complaints := List.prefix_rfl
  joins h := h

theorem Follows.trans (h : Follows p m q) (h' : Follows q n r) : Follows p (m + n) r where
  current_move k := by rw [h'.current_move, h.current_move, Nat.add_assoc]
  source_eq := by rw [h'.source_eq, h.source_eq, Source.drop_drop]
  config_eq := h'.config_eq.trans h.config_eq
  complaints := h.complaints.trans h'.complaints
  joins hp := h'.joins (h.joins hp)

theorem Reaches.follows (h : Reaches p n q) : Follows p n q where
  current_move := h.current_move
  source_eq := h.source_eq
  config_eq := h.config_eq
  complaints := Leads.toList_isPrefix ⟨n, h⟩
  joins hp := h.grammar_eq ▸ hp

/-- Other levels and another table do not move the window. -/
theorem follows_update (p : Parser σ) (depth : Nat) {g : Grammar}
    (hg : p.grammar.Joins → g.Joins) : Follows p 0 { p with depth, grammar := g } where
  current_move m := by
    rw [Nat.zero_add]
    match m with
    | 0 => rfl
    | 1 => rfl
    | m + 2 => rw [Parser.current_move, Parser.current_move]
  source_eq := rfl
  config_eq := rfl
  complaints := List.prefix_rfl
  joins := hg

end Follows

section Runs

variable [FiniteSource σ]

theorem exists_follows_step (p : Parser σ) (op : Op) : ∃ n, Follows p n (p.step op).2 := by
  rcases step_cases p op with ⟨n, hreaches⟩ | ⟨g, hg, heq⟩ | ⟨-, depth, heq⟩
  · exact ⟨n, hreaches.follows⟩
  · exact ⟨0, heq ▸ follows_update p p.depth hg⟩
  · exact ⟨0, heq ▸ follows_update p depth id⟩

theorem run_take_succ {ops : List Op} {i : Nat} {op : Op} (p : Parser σ) (h : ops[i]? = some op) :
    (p.run (ops.take (i + 1))).2 = ((p.run (ops.take i)).2.step op).2 := by
  induction ops generalizing p i with
  | nil => cases h
  | cons first ops ih =>
    cases i with
    | zero =>
      cases h
      rfl
    | succ i => exact ih (p.step first).2 h

/-- From one moment of a session to the next. -/
theorem exists_follows_run (p : Parser σ) (ops : List Op) (i : Nat) :
    ∃ n, Follows (p.run (ops.take i)).2 n (p.run (ops.take (i + 1))).2 := by
  cases h : ops[i]? with
  | none =>
    have hlength : ops.length ≤ i := List.getElem?_eq_none_iff.1 h
    rw [List.take_of_length_le hlength, List.take_of_length_le (Nat.le_succ_of_le hlength)]
    exact ⟨0, .refl _⟩
  | some op =>
    rw [run_take_succ p h]
    exact exists_follows_step _ op

/-- At each moment the window stands at one place of the sequence that was there in the
beginning, and it never goes back. -/
theorem exists_places (p : Parser σ) (ops : List Op) :
    ∃ k : Nat → Nat, k 0 = 0 ∧ (∀ i, k i ≤ k (i + 1)) ∧
      ∀ i, Follows p (k i) (p.run (ops.take i)).2 := by
  induction ops generalizing p with
  | nil =>
    refine ⟨fun _ => 0, rfl, fun _ => Nat.le_refl 0, fun i => ?_⟩
    rw [List.take_nil]
    exact .refl p
  | cons op ops ih =>
    obtain ⟨n, hn⟩ := exists_follows_step p op
    obtain ⟨k, hzero, hmono, hfollows⟩ := ih (p.step op).2
    refine ⟨fun i => Nat.casesOn i 0 fun i => n + k i, rfl, fun i => ?_, fun i => ?_⟩
    · cases i with
      | zero => exact Nat.zero_le _
      | succ i => exact Nat.add_le_add_left (hmono i) n
    · cases i with
      | zero => exact .refl p
      | succ i => exact hn.trans (hfollows i)

/-- **What a session keeps.**  A parser is made over a source, and then any operations follow, in
any order.  At each moment the window shows two neighbours of the sequence that the source gives
and the source stands behind them, and the place in the sequence never goes back.  The settings
stay, and what was complained of is not taken back.  Each operation leaves as many levels open
as it found, except those that open a level or set their number.

A kind that binds tighter than the lowest power joins something.  So wherever an operation calls
for an expression, it does not matter what the parser would do with a kind that binds and joins
nothing; and it does not matter whether the levels are told or counted in the state. -/
theorem session_keeps (source : σ) (config : Config) (ops : List Op) :
    let state (i : Nat) := ((ofSource source config).run (ops.take i)).2
    (∃ k : Nat → Nat, k 0 = 0 ∧ (∀ i, k i ≤ k (i + 1)) ∧
      ∀ i, (state i).current = Source.get source (k i) ∧
        (state i).peek = Source.get source (k i + 1) ∧
        (state i).source = Source.drop (k i + 2) source) ∧
    (∀ i, (state i).config = config) ∧
    (∀ i, (state i).diagnostics.toList <+: (state (i + 1)).diagnostics.toList) ∧
    (∀ i op, ops[i]? = some op → op ≠ .enter → (∀ depth, op ≠ .restore depth) →
      (state (i + 1)).depth = (state i).depth) ∧
    (∀ i kind, .lowest < (state i).grammar.power kind → (state i).grammar.joining kind ≠ none) ∧
    ∀ i q, Leads (state i) q → ∀ (detours : Detours σ) (n : Nat) (b : Power), q.levels < n →
      expressionCounting detours n b q = q.expression b := by
  intro state
  obtain ⟨k, hzero, hmono, hfollows⟩ := exists_places (ofSource source config) ops
  have hjoins (i : Nat) : (state i).grammar.Joins := (hfollows i).joins Grammar.joins_standard
  refine ⟨⟨k, hzero, hmono, fun i => ⟨?_, ?_, ?_⟩⟩, fun i => (hfollows i).config_eq, fun i => ?_,
    fun i op hop henter hrestore => ?_, fun i kind hbinds hnone => ?_,
    fun i q hq detours n b hn => ?_⟩
  · exact ((hfollows i).current_move 0).trans (current_ofSource source config (k i))
  · exact ((hfollows i).current_move 1).trans (current_ofSource source config (k i + 1))
  · have hsource : (ofSource source config).source = Source.drop 2 source := rfl
    rw [(hfollows i).source_eq, hsource, Source.drop_drop, Nat.add_comm]
  · obtain ⟨n, hn⟩ := exists_follows_run (ofSource source config) ops i
    exact hn.complaints
  · show ((ofSource source config).run (ops.take (i + 1))).2.depth = _
    rw [run_take_succ _ hop]
    exact depth_step henter hrestore
  · rw [hjoins i kind hnone] at hbinds
    exact absurd hbinds (by decide)
  · exact expressionCounting_eq detours n b q (hq.grammar_eq ▸ hjoins i) hn

end Runs

/-- The end of input is made an operator, and stands between `a` and `-b`; those behind `b` have
a text.  With one of four levels taken the expression does not fit, and the level stays open when
it has failed, while the window shows two neighbours.  The operator has its entry, so it does not
matter what would be done without one. -/
theorem session_keeps_level :
    let source := Sequence.closed
      [⟨.identifier, "a"⟩, .eof, ⟨.minus, "-"⟩, ⟨.identifier, "b"⟩] ⟨.eof, "<eof>"⟩ rfl
    let ops : List Op := [.setJoining .eof .sum .binary, .enter, .expression .lowest, .program]
    let state (i : Nat) := ((ofSource source ⟨true, 4⟩).run (ops.take i)).2
    let detours : Detours Sequence := ⟨fun q => (none, q), fun _ q => (none, q)⟩
    (∃ k, (state 3).current = source.token k ∧ (state 3).peek = source.token (k + 1)) ∧
      ops[2]? = some (.expression .lowest) ∧ (state 3).diagnostics.toList = [.tooDeep 4] ∧
      (state 3).depth = (state 2).depth ∧ (state 2).depth = 1 ∧
      .lowest < (state 2).grammar.power .eof ∧ (state 2).grammar.joining .eof ≠ none ∧
      Leads (state 2) (state 2) ∧ (state 2).levels < 4 ∧
      expressionCounting detours 4 .lowest (state 2) = (state 2).expression .lowest := by
  intro source ops state detours
  obtain ⟨⟨k, -, -, hplaces⟩, -, -, hdepth, hbinds, hcounting⟩ :=
    session_keeps source ⟨true, 4⟩ ops
  obtain ⟨hcurrent, hpeek, -⟩ := hplaces 3
  rw [Sequence.get_eq] at hcurrent hpeek
  have hop : ops[2]? = some (.expression .lowest) := rfl
  have hpower : .lowest < (state 2).grammar.power .eof := by decide
  have hlevels : (state 2).levels < 4 := by decide
  exact ⟨⟨k 3, hcurrent, hpeek⟩, hop, rfl,
    hdepth 2 _ hop Op.noConfusion fun _ => Op.noConfusion, rfl, hpower, hbinds 2 .eof hpower,
    .refl _, hlevels, hcounting 2 _ (.refl _) detours 4 .lowest hlevels⟩

end Parser

end Frontend
