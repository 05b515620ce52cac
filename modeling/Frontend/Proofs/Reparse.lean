/-
# `Frontend.Proofs.Reparse` — a written program is read back

A well formed program is written out, the text is parsed, and the answer is the
program again.  One thing is not written and comes back changed: the token that
an expression by itself keeps is the first token of its written form.

Two conditions are on the settings.  The limit must allow the levels of every
expression; as many levels as there are tokens are always enough.  And the
values must be read, unless there are none: passed over, they would be lost.

A `let` without a value is written with nothing before its terminator.  Where
values are read this is a complaint when the text is read back, but the
statement comes back all the same.

The induction is over the statements.  What it needs is that a statement is
read up to its own last token and no further: behind an expression that no
terminator ends stands a token that begins a statement, and no such token binds
an expression to anything.
-/
import Frontend.Proofs.Completeness
import Frontend.Proofs.Dispatch
import Frontend.Proofs.Rendering

namespace Frontend

/-! ## What comes back -/

namespace Stmt

/-- A `let` without a value. -/
def isBareLet : Stmt → Bool
  | letStmt _ _ none => true
  | _ => false

/-- What is complained of when a statement is read back. -/
def complaints (config : Config) (s : Stmt) : List Problem :=
  if config.readValues && s.isBareLet then [.noOpening .semicolon] else []

theorem complaints_ne_nil_iff {config : Config} {s : Stmt} :
    s.complaints config ≠ [] ↔ config.readValues = true ∧ s.isBareLet = true := by
  rw [complaints, ← Bool.and_eq_true_iff]
  split
  · next h => exact ⟨fun _ => h, fun _ => List.cons_ne_nil _ _⟩
  · next h => exact ⟨fun hne => absurd rfl hne, fun hboth => absurd hboth h⟩

/-- A statement as it is read back. -/
def reread : Stmt → Stmt
  | exprStmt _ e => exprStmt ((tokenize e.render).headD .eof) e
  | s => s

/-- The limit allows for a statement when it is read back. -/
structure Fits (config : Config) (s : Stmt) : Prop where
  levels_le : ∀ e ∈ s.expr?, e.phrase.levels ≤ config.maxDepth
  maxDepth_pos : s.complaints config ≠ [] → 0 < config.maxDepth

theorem render_reread (s : Stmt) : s.reread.render = s.render := by
  cases s <;> rfl

end Stmt

namespace Program

/-- A program as it is read back. -/
def reread (p : Program) : Program :=
  ⟨p.statements.map Stmt.reread⟩

theorem render_reread (p : Program) : p.reread.render = p.render := by
  rw [render, reread, List.map_map, render]
  exact congrArg joinLines (List.map_congr_left fun s _ => s.render_reread)

end Program

/-! ## The tokens between statements -/

/-- A token of a kind that begins a statement, or the end of input: it ends an
expression without being taken. -/
def Token.Parts (t : Token) : Prop :=
  t.kind ≠ .semicolon ∧ Grammar.standard.power t.kind = .lowest

theorem Token.Parts.stops {t : Token} (h : t.Parts) : Grammar.standard.Stops .lowest t :=
  .inr (by rw [h.2]; exact Power.lowest_le _)

theorem Expr.head?_yield_phrase {e : Expr} (h : e.WellFormed) :
    ∃ t ts, e.phrase.yield = t :: ts ∧
      (t.kind = .identifier ∨ t.kind = .integer ∨ t.kind = .openParen) := by
  cases e with
  | ident id => exact ⟨_, _, rfl, .inl h.kind_eq⟩
  | integer t v => exact ⟨_, _, rfl, .inr (.inl h.1)⟩
  | unary t op e => exact ⟨_, _, rfl, .inr (.inr rfl)⟩
  | binary t op l r => exact ⟨_, _, rfl, .inr (.inr rfl)⟩

theorem Stmt.head?_tokens {s : Stmt} (h : s.WellFormed) :
    ∃ t ts, s.tokens = t :: ts ∧ t.Parts ∧ t.kind ≠ .eof := by
  cases s with
  | letStmt t name v =>
    obtain ⟨-, rfl, -⟩ := h
    exact ⟨_, _, rfl, ⟨by decide, by decide⟩, by decide⟩
  | returnStmt t v =>
    obtain ⟨-, rfl⟩ := h
    exact ⟨_, _, rfl, ⟨by decide, by decide⟩, by decide⟩
  | exprStmt t e =>
    obtain ⟨u, us, hyield, hu⟩ := Expr.head?_yield_phrase (h.1 e rfl)
    refine ⟨u, us, hyield, ?_⟩
    rcases hu with hu | hu | hu <;> simp only [Token.Parts, hu] <;> decide

theorem Stmt.sublist_tokens {s : Stmt} {e : Expr} (h : e ∈ s.expr?) :
    e.phrase.yield.Sublist s.tokens := by
  cases s with
  | letStmt t name v =>
    obtain rfl : v = some e := h
    exact (((List.sublist_append_left _ _).cons _).cons _).cons _
  | returnStmt t v =>
    obtain rfl : v = some e := h
    exact (List.sublist_append_left _ _).cons _
  | exprStmt t e' =>
    obtain rfl : e' = e := Option.some.inj h
    exact List.Sublist.refl _

namespace Parser

variable {σ : Type}

section Ready

variable [Source σ]

/-- A parser between statements: the standard table, no level open, and a list of
tokens to come. -/
structure Ready (p : Parser σ) (config : Config) (ts : List Token) : Prop where
  grammar_eq : p.grammar = .standard
  config_eq : p.config = config
  depth_eq : p.depth = 0
  holds : p.Holds ts

namespace Ready

variable {p : Parser σ} {config : Config} {t u : Token} {ts us : List Token} {e : Expr}

theorem move (h : Ready p config (ts ++ us)) : Ready (p.move ts.length) config us where
  grammar_eq := by rw [grammar_move, h.grammar_eq]
  config_eq := by rw [config_move, h.config_eq]
  depth_eq := by rw [depth_move, h.depth_eq]
  holds := h.holds.move

theorem advance (h : Ready p config (t :: ts)) : Ready p.advance config ts := by
  have hfront : Ready p config ([t] ++ ts) := h
  exact hfront.move

theorem report (h : Ready p config ts) (x : Problem) : Ready (p.report x) config ts :=
  ⟨h.grammar_eq, h.config_eq, h.depth_eq, (holds_report x).2 h.holds⟩

theorem current_eq (h : Ready p config (t :: ts)) : p.current = t :=
  h.holds.current_eq

theorem peek_eq (h : Ready p config (t :: u :: ts)) : p.peek = u :=
  h.advance.current_eq

theorem levels_eq (h : Ready p config ts) : p.levels = config.maxDepth := by
  rw [levels, h.config_eq, h.depth_eq, Nat.sub_zero]

theorem fronts (h : Ready p config (e.phrase.yield ++ t :: ts)) : Fronts p e.phrase t where
  grammar_eq := h.grammar_eq
  begins := by
    have hholds : p.Holds ((e.phrase.yield ++ [t]) ++ ts) := by
      rw [List.append_assoc]
      exact h.holds
    exact hholds.begins
  closed := e.closedBy_phrase _ t

end Ready

/-! ## Expressions in statements -/

section Values

variable {p : Parser σ} {config : Config} {t : Token} {ts : List Token} {e : Expr}

/-- A written expression is read up to its last token, if the limit allows. -/
theorem expression_written (h : Ready p config (e.phrase.yield ++ t :: ts)) (he : e.WellFormed)
    (ht : Grammar.standard.Stops .lowest t) (hfits : e.phrase.levels ≤ config.maxDepth) :
    p.expression .lowest = (some e, p.move e.phrase.width) := by
  have hread := (reached (Expr.wellBound_phrase he)).operand h.fronts
    (e.tighterThan_phrase _ _) ht (h.levels_eq ▸ hfits)
  rw [Expr.erase_phrase he] at hread
  exact hread

/-- Behind the expression the terminator is taken, and nothing else is. -/
theorem value_written (h : Ready p config (e.phrase.yield ++ t :: ts)) (he : e.WellFormed)
    (ht : Grammar.standard.Stops .lowest t) (hfits : e.phrase.levels ≤ config.maxDepth) :
    p.value = (some e, p.move (e.phrase.width + if t.kind = .semicolon then 1 else 0)) := by
  have hpeek := h.fronts.peek_eq
  rw [value, expression_written h he ht hfits, takeTerminator, hpeek]
  split
  · rw [advance_move]
  · rfl

/-- If the limit does not allow, there is a complaint. -/
theorem value_blocked (h : Ready p config (e.phrase.yield ++ t :: ts)) (he : e.WellFormed)
    (hdeep : config.maxDepth < e.phrase.levels) :
    p.diagnostics.size < p.value.2.diagnostics.size := by
  obtain ⟨k, -, hblocked⟩ := blocked (Expr.wellBound_phrase he) p.levels .lowest p t h.fronts
    (e.tighterThan_phrase _ _) (h.levels_eq ▸ hdeep)
  have hfails : Fails p (p.expression .lowest).2 := ⟨k, _, congrArg Prod.snd hblocked⟩
  exact Nat.lt_of_lt_of_le hfails.size_lt (leads_takeTerminator _).size_le

/-- A terminator in the place of a value is complained of and then left behind. -/
theorem value_semicolon (h : Ready p config (.spelled .semicolon :: t :: ts))
    (ht : t.kind ≠ .semicolon) (hpos : 0 < config.maxDepth) :
    p.value = (none, p.report (.noOpening .semicolon)) := by
  obtain ⟨n, hn⟩ : ∃ n, p.levels = n + 1 :=
    Nat.exists_eq_add_one_of_ne_zero (Nat.ne_of_gt (h.levels_eq ▸ hpos))
  have hnone : p.grammar.opening p.current.kind = none := by
    rw [h.grammar_eq, h.current_eq]
    rfl
  have hread : p.expression .lowest = (none, p.report (.noOpening .semicolon)) := by
    rw [expression, hn, expressionWithin, hnone, h.current_eq]
    rfl
  rw [value, hread, takeTerminator]
  exact congrArg (Prod.mk none) (if_neg (h.peek_eq ▸ ht))

end Values

end Ready

/-! ## Statements by what they begin with -/

section Statements

variable [FiniteSource σ] {p : Parser σ} {config : Config} {t : Token} {ts : List Token}

theorem atTerminator_semicolon (h : Ready p config (.spelled .semicolon :: ts)) :
    p.atTerminator = true := by
  rw [atTerminator, h.current_eq]
  rfl

theorem atTerminator_written {e : Expr} (h : Ready p config (e.phrase.yield ++ ts))
    (he : e.WellFormed) : p.atTerminator = false := by
  obtain ⟨u, us, hyield, hu⟩ := Expr.head?_yield_phrase he
  rw [hyield] at h
  rw [atTerminator, h.current_eq, Token.is, Token.is]
  rcases hu with hu | hu | hu <;> rw [hu] <;> rfl

theorem Ready.let_value {name : Ident} {v : Option Expr}
    (h : Ready p config ((Stmt.letStmt t name v).tokens ++ ts)) :
    Ready (p.move 3) config (Stmt.valueTokens v ++ .spelled .semicolon :: ts) := by
  have hlist : (Stmt.letStmt t name v).tokens ++ ts =
      [t, name.token, .spelled .assign] ++
        (Stmt.valueTokens v ++ .spelled .semicolon :: ts) := by
    simp [Stmt.tokens]
  exact (hlist ▸ h).move

theorem Ready.return_value {v : Option Expr}
    (h : Ready p config ((Stmt.returnStmt t v).tokens ++ ts)) :
    Ready (p.move 1) config (Stmt.valueTokens v ++ .spelled .semicolon :: ts) := by
  have hlist : (Stmt.returnStmt t v).tokens ++ ts =
      [t] ++ (Stmt.valueTokens v ++ .spelled .semicolon :: ts) := by
    simp [Stmt.tokens]
  exact (hlist ▸ h).move

/-- Without a value nothing is passed over but the mark. -/
theorem skipToTerminator_bare {name : Ident}
    (h : Ready p config ((Stmt.letStmt t name none).tokens ++ ts)) :
    (p.move 2).skipToTerminator = p.move 3 := by
  have hcurrent : (p.move 2).current = .spelled .assign := h.advance.advance.current_eq
  have hmark : (p.move 2).atTerminator = false := by
    rw [atTerminator, hcurrent]
    rfl
  exact (Skips.next hmark (.here (atTerminator_semicolon h.let_value))).eq

/-- Behind the name and the mark of a `let` its value is read or passed over. -/
theorem statement_let {name : Ident} (hname : name.WellFormed)
    (h : Ready p config (.spelled .kwLet :: name.token :: .spelled .assign :: ts)) :
    p.statement =
      let v := if config.readValues = true then (p.move 3).value
        else (none, (p.move 2).skipToTerminator)
      (some (.letStmt (.spelled .kwLet) name v.1), v.2) := by
  have hform : p.grammar.form p.current.kind = some .letForm := by
    rw [h.grammar_eq, h.current_eq]
    rfl
  have hident : p.expect .identifier = (true, p.advance) :=
    expect_of_eq (h.peek_eq ▸ hname.kind_eq)
  have hassign : p.advance.expect .assign = (true, p.advance.advance) :=
    expect_of_eq (congrArg Token.kind h.advance.peek_eq)
  have hread : Ident.ofToken p.advance.current = name := by
    rw [h.advance.current_eq, Ident.ofToken, ← hname.value_eq]
  have hconfig : p.advance.advance.config = config := h.advance.advance.config_eq
  simp only [statement_of_letForm hform, letStatement, hident, hassign, hread, hconfig,
    h.current_eq]
  rfl

/-- Behind the word of a `return` its value is read or passed over, unless it ends
at once. -/
theorem statement_return (h : Ready p config (.spelled .kwReturn :: ts)) :
    p.statement =
      let v := if config.readValues = true ∧ p.advance.atTerminator = false then p.advance.value
        else (none, p.advance.skipToTerminator)
      (some (.returnStmt (.spelled .kwReturn) v.1), v.2) := by
  have hform : p.grammar.form p.current.kind = some .returnForm := by
    rw [h.grammar_eq, h.current_eq]
    rfl
  have hconfig : p.advance.config = config := h.advance.config_eq
  simp only [statement_of_returnForm hform, returnStatement, hconfig, h.current_eq]

theorem statement_expr {e : Expr} (he : e.WellFormed) (h : Ready p config (e.phrase.yield ++ ts)) :
    p.statement = (p.value.1.map (.exprStmt p.current), p.value.2) := by
  obtain ⟨u, us, hyield, hu⟩ := Expr.head?_yield_phrase he
  rw [hyield] at h
  have hform : p.grammar.form p.current.kind = none := by
    rw [h.grammar_eq, h.current_eq]
    rcases hu with hu | hu | hu <;> rw [hu] <;> rfl
  rw [statement_of_exprForm (by simp [hform]) (by simp [hform]), exprStatement]

/-! ## One statement -/

/-- A statement was read, with a parser that stands at its last token: the other
tokens come next, and no more was complained of than the statement gives cause
for. -/
structure Past (p q : Parser σ) (config : Config) (s : Stmt) (ts : List Token) : Prop where
  ready : Ready q.advance config ts
  toList_eq : q.diagnostics.toList = p.diagnostics.toList ++ s.complaints config

theorem Ready.past {s : Stmt} (h : Ready p config (s.tokens ++ ts)) {n : Nat}
    (hn : s.tokens.length = n + 1) (hs : s.complaints config = []) :
    Past p (p.move n) config s ts where
  ready := by
    rw [advance_move, ← hn]
    exact h.move
  toList_eq := by rw [diagnostics_move, hs, List.append_nil]

theorem let_written {name : Ident} {v : Option Expr}
    (h : Ready p config ((Stmt.letStmt (.spelled .kwLet) name v).tokens ++ t :: ts))
    (hs : (Stmt.letStmt (.spelled .kwLet) name v).WellFormed) (ht : t.Parts)
    (hfits : (Stmt.letStmt (.spelled .kwLet) name v).Fits config)
    (hvalues : config.readValues = true ∨ v = none) :
    ∃ q, p.statement = (some (.letStmt (.spelled .kwLet) name v), q) ∧
      Past p q config (.letStmt (.spelled .kwLet) name v) (t :: ts) := by
  obtain ⟨hv, -, hname⟩ := hs
  have hfront := h.let_value
  rw [statement_let hname h]
  cases v with
  | some e =>
    have hreads : config.readValues = true := hvalues.resolve_right (by simp)
    have hread := value_written hfront (hv e rfl) (.inl rfl) (hfits.levels_le e rfl)
    simp only [if_pos hreads, hread, move_move]
    refine ⟨_, rfl, h.past ?_ ?_⟩
    · simp [Stmt.tokens, Stmt.valueTokens, Phrase.length_yield, Token.spelled]
      omega
    · simp [Stmt.complaints, Stmt.isBareLet]
  | none =>
    by_cases hreads : config.readValues = true
    · have hcomplaints : (Stmt.letStmt (.spelled .kwLet) name none).complaints config =
          [.noOpening .semicolon] := by
        simp [Stmt.complaints, Stmt.isBareLet, hreads]
      have hread := value_semicolon hfront ht.1 (hfits.maxDepth_pos (by simp [hcomplaints]))
      simp only [if_pos hreads, hread]
      refine ⟨_, rfl, ?_, ?_⟩
      · exact (hfront.advance).report _
      · rw [hcomplaints]
        exact toList_report_move p 3 _
    · simp only [if_neg hreads, skipToTerminator_bare h]
      exact ⟨_, rfl, h.past rfl (by simp [Stmt.complaints, hreads])⟩

theorem return_written {v : Option Expr}
    (h : Ready p config ((Stmt.returnStmt (.spelled .kwReturn) v).tokens ++ t :: ts))
    (hs : (Stmt.returnStmt (.spelled .kwReturn) v).WellFormed)
    (hfits : (Stmt.returnStmt (.spelled .kwReturn) v).Fits config)
    (hvalues : config.readValues = true ∨ v = none) :
    ∃ q, p.statement = (some (.returnStmt (.spelled .kwReturn) v), q) ∧
      Past p q config (.returnStmt (.spelled .kwReturn) v) (t :: ts) := by
  have hcomplaints : (Stmt.returnStmt (.spelled .kwReturn) v).complaints config = [] := by
    simp [Stmt.complaints, Stmt.isBareLet]
  have hfront := h.return_value
  rw [statement_return h]
  cases v with
  | some e =>
    have hreads : config.readValues = true := hvalues.resolve_right (by simp)
    have he := hs.1 e rfl
    have hread := value_written hfront he (.inl rfl) (hfits.levels_le e rfl)
    have hopen : p.advance.atTerminator = false := atTerminator_written hfront he
    have hvalue : p.advance.value = _ := hread
    simp only [hreads, hopen, hvalue, move_move]
    refine ⟨_, rfl, h.past ?_ hcomplaints⟩
    simp [Stmt.tokens, Stmt.valueTokens, Phrase.length_yield, Token.spelled]
    omega
  | none =>
    have hclosed : p.advance.atTerminator = true := atTerminator_semicolon hfront
    have hends : ¬ (config.readValues = true ∧ p.advance.atTerminator = false) := by
      rintro ⟨-, hopen⟩
      rw [hclosed] at hopen
      cases hopen
    simp only [if_neg hends, (Skips.here hclosed).eq]
    exact ⟨p.move 1, rfl, h.past rfl hcomplaints⟩

/-- The token that an expression by itself keeps is the first of its written form. -/
theorem expr_written {u : Token} {e : Expr}
    (h : Ready p config ((Stmt.exprStmt u e).tokens ++ t :: ts))
    (hs : (Stmt.exprStmt u e).WellFormed) (ht : t.Parts) (hfits : (Stmt.exprStmt u e).Fits config) :
    ∃ q, p.statement = (some (Stmt.exprStmt u e).reread, q) ∧
      Past p q config (.exprStmt u e) (t :: ts) := by
  have he := hs.1 e rfl
  have htokens : tokensOf e.render.toList = e.phrase.yield := by
    have hrender := Expr.tokensOf_render he clear_nil
    rwa [List.append_nil, tokensOf_nil, List.append_nil] at hrender
  have hfirst : p.current = (tokenize e.render).headD .eof := by
    obtain ⟨w, ws, hyield, -⟩ := Expr.head?_yield_phrase he
    have hcurrent := h
    rw [Stmt.tokens, hyield] at hcurrent
    rw [tokenize, htokens, hyield, hcurrent.current_eq]
    rfl
  have hread := value_written h he ht.stops (hfits.levels_le e rfl)
  rw [if_neg ht.1] at hread
  rw [statement_expr he h, hread, hfirst]
  refine ⟨_, rfl, h.past e.phrase.length_yield ?_⟩
  simp [Stmt.complaints, Stmt.isBareLet]

/-- The step of a run over a written program. -/
theorem statement_written {s : Stmt} (h : Ready p config (s.tokens ++ t :: ts))
    (hs : s.WellFormed) (ht : t.Parts) (hfits : s.Fits config)
    (hvalues : config.readValues = true ∨ s.value? = none) :
    ∃ q, p.statement = (some s.reread, q) ∧ Past p q config s (t :: ts) := by
  cases s with
  | letStmt u name v =>
    obtain rfl := hs.2.1
    exact let_written h hs ht hfits hvalues
  | returnStmt u v =>
    obtain rfl := hs.2
    exact return_written h hs hfits hvalues
  | exprStmt u e => exact expr_written h hs ht hfits

/-! ## The run -/

/-- Behind a statement comes the first token of the next, or the end of input. -/
theorem exists_parts {ss : List Stmt} (h : ∀ s ∈ ss, s.WellFormed) :
    ∃ t ts, ss.flatMap Stmt.tokens ++ [.eof] = t :: ts ∧ t.Parts := by
  cases ss with
  | nil => exact ⟨.eof, [], rfl, by decide, rfl⟩
  | cons s ss =>
    obtain ⟨t, ts, htokens, ht, -⟩ := Stmt.head?_tokens (h s List.mem_cons_self)
    exact ⟨t, ts ++ (ss.flatMap Stmt.tokens ++ [.eof]), by
      rw [List.flatMap_cons, htokens, List.append_assoc, List.cons_append], ht⟩

theorem Ready.current_ne_eof {s : Stmt} (h : Ready p config (s.tokens ++ ts))
    (hs : s.WellFormed) : p.current.kind ≠ .eof := by
  obtain ⟨u, us, htokens, -, hu⟩ := Stmt.head?_tokens hs
  rw [htokens] at h
  rw [h.current_eq]
  exact hu

/-- Every statement of a written program comes back, and only those give cause for
complaint that a value was read for and have none. -/
theorem statements_written {ss : List Stmt} (hss : ∀ s ∈ ss, s.WellFormed)
    (hfits : ∀ s ∈ ss, s.Fits config)
    (hvalues : config.readValues = true ∨ ∀ s ∈ ss, s.value? = none)
    (h : Ready p config (ss.flatMap Stmt.tokens ++ [.eof])) :
    p.statements.1 = ss.map Stmt.reread ∧
      p.statements.2.diagnostics.toList =
        p.diagnostics.toList ++ ss.flatMap (Stmt.complaints config) := by
  induction ss generalizing p with
  | nil =>
    rw [statements_of_eof (h.current_eq ▸ rfl)]
    exact ⟨rfl, (List.append_nil _).symm⟩
  | cons s ss ih =>
    have hs := hss s List.mem_cons_self
    have hrest : ∀ u ∈ ss, u.WellFormed := fun u hu => hss u (List.mem_cons_of_mem s hu)
    rw [List.flatMap_cons, List.append_assoc] at h
    obtain ⟨t, ts, htokens, ht⟩ := exists_parts hrest
    obtain ⟨q, hq, hpast⟩ := statement_written (htokens ▸ h) hs ht
      (hfits s List.mem_cons_self) (hvalues.imp_right fun hv => hv s List.mem_cons_self)
    obtain ⟨hlist, hdiagnostics⟩ := ih hrest
      (fun u hu => hfits u (List.mem_cons_of_mem s hu))
      (hvalues.imp_right fun hv u hu => hv u (List.mem_cons_of_mem s hu))
      (htokens ▸ hpast.ready)
    rw [statements_of_ne_eof (h.current_ne_eof hs), hq]
    constructor
    · show s.reread :: q.advance.statements.1 = _
      rw [hlist, List.map_cons]
    · show q.advance.statements.2.diagnostics.toList = _
      rw [hdiagnostics]
      show q.diagnostics.toList ++ _ = _
      rw [hpast.toList_eq, List.flatMap_cons, List.append_assoc]

end Statements

/-! ## Programs -/

/-- A new parser is ready for the tokens that its source gives. -/
theorem ready_ofSource {s : σ} [Source σ] {ts : List Token} (h : Source.Gives s ts)
    (config : Config) : Ready (ofSource s config) config ts :=
  ⟨rfl, rfl, rfl, holds_ofSource h config⟩

/-- A new parser over a text is ready for the tokens of the text, the end counted. -/
theorem ready_ofString (source : String) (config : Config) :
    Ready (ofSource (Lexer.ofString source) config) config (tokenize source) :=
  have hready := ready_ofSource (Lexer.gives_ofChars source.toList) config
  ⟨hready.grammar_eq, hready.config_eq, hready.depth_eq, hready.holds.concat_eof⟩

end Parser

/-- What is complained of when a program is read back: where values are read, one
thing for each `let` without one. -/
theorem flatMap_complaints (config : Config) (ss : List Stmt) :
    ss.flatMap (Stmt.complaints config) =
      List.replicate (if config.readValues then ss.countP Stmt.isBareLet else 0)
        (.noOpening .semicolon) := by
  induction ss with
  | nil => simp
  | cons s ss ih =>
    rw [List.flatMap_cons, ih, Stmt.complaints]
    cases config.readValues <;> cases hs : s.isBareLet <;> simp [hs, List.replicate_succ]

namespace Program

variable {P : Program}

/-- A written program is read back by a parse of its text. -/
theorem parseText_written (hP : P.WellFormed) (config : Config)
    (hfits : ∀ s ∈ P.statements, s.Fits config)
    (hvalues : config.readValues = true ∨ ∀ s ∈ P.statements, s.value? = none) :
    (parseText P.render config).program = P.reread ∧
      (parseText P.render config).diagnostics.toList =
        P.statements.flatMap (Stmt.complaints config) := by
  have hready := Parser.ready_ofString P.render config
  rw [tokenize, tokensOf_render hP] at hready
  obtain ⟨hlist, hdiagnostics⟩ := Parser.statements_written hP hfits hvalues hready
  exact ⟨congrArg Program.mk hlist, hdiagnostics⟩

/-- As many levels as there are tokens are enough. -/
theorem fits_of_length_le (hP : P.WellFormed) {config : Config}
    (h : (tokensOf P.render.toList).length ≤ config.maxDepth) :
    ∀ s ∈ P.statements, s.Fits config := by
  intro s hs
  have hsub : s.tokens.Sublist P.tokens := by
    rw [tokens, List.flatMap_def]
    exact List.sublist_flatten_of_mem (List.mem_map_of_mem hs)
  have hle : s.tokens.length ≤ config.maxDepth := by
    rw [tokensOf_render hP] at h
    exact Nat.le_trans hsub.length_le h
  constructor
  · intro e he
    calc e.phrase.levels
        ≤ e.phrase.yield.length := e.phrase.levels_le_length_yield
      _ ≤ s.tokens.length := (Stmt.sublist_tokens he).length_le
      _ ≤ config.maxDepth := hle
  · intro _
    obtain ⟨t, ts, htokens, -⟩ := Stmt.head?_tokens (hP s hs)
    rw [htokens] at hle
    exact Nat.lt_of_lt_of_le (Nat.succ_pos _) hle

/-- **Parsing undoes rendering.**  A well formed program is read back from its written
form: every statement comes back, with nothing changed but the token of an expression
by itself, which is the first of its written form.  Where values are read a `let`
without one is complained of, and nothing else ever is. -/
theorem parseText_render (P : Program) (hP : P.WellFormed) (config : Config)
    (hlimit : (tokensOf P.render.toList).length ≤ config.maxDepth)
    (hvalues : config.readValues = true ∨ ∀ s ∈ P.statements, s.value? = none) :
    (parseText P.render config).program = P.reread ∧
      (parseText P.render config).diagnostics.messages =
        List.replicate (if config.readValues then P.statements.countP Stmt.isBareLet else 0)
          "no prefix parse function for Semicolon found" := by
  obtain ⟨hprogram, hdiagnostics⟩ :=
    parseText_written hP config (fits_of_length_le hP hlimit) hvalues
  refine ⟨hprogram, ?_⟩
  rw [Diagnostics.messages, hdiagnostics, flatMap_complaints, List.map_replicate]
  rfl

/-- The written form of four statements, one of them a `let` without a value, with
values read and as many levels as there are tokens. -/
theorem parseText_render_statements :
    let a : Ident := ⟨⟨.identifier, "a"⟩, "a"⟩
    let sum : Expr := .binary ⟨.plus, "+"⟩ "+" (.unary ⟨.bang, "!"⟩ "!" (.ident a))
      (.integer ⟨.integer, "0x1F"⟩ 31)
    let P : Program := ⟨[.letStmt (.spelled .kwLet) a none, .exprStmt .eof (.ident a),
      .returnStmt (.spelled .kwReturn) (some sum), .exprStmt .eof sum]⟩
    let config : Config := ⟨true, 23⟩
    P.WellFormed ∧ (tokensOf P.render.toList).length ≤ config.maxDepth ∧
      config.readValues = true ∧ (parseText P.render config).program = P.reread ∧
      (parseText P.render config).diagnostics.messages =
        ["no prefix parse function for Semicolon found"] := by
  intro a sum P config
  have hword : IsWord "a".toList := ⟨by decide, List.all_eq_true.1 (by decide)⟩
  have ha : a.WellFormed := ⟨rfl, ⟨hword, by decide⟩, rfl⟩
  have hnumeral : IsInteger "0x1F".toList :=
    .inr ⟨'x', .hexadecimal, ['1', 'F'], by decide, rfl, by decide, List.all_eq_true.1 (by decide)⟩
  have hsum : sum.WellFormed :=
    ⟨rfl, rfl, rfl, ⟨rfl, rfl, rfl, ha⟩, rfl, hnumeral, by decide⟩
  have hP : P.WellFormed := by
    intro s hs
    simp only [P, List.mem_cons, List.not_mem_nil, or_false] at hs
    rcases hs with rfl | rfl | rfl | rfl
    · exact ⟨by rintro _ ⟨⟩, rfl, ha⟩
    · exact ⟨by rintro _ ⟨⟩; exact ha, trivial⟩
    · exact ⟨by rintro _ ⟨⟩; exact hsum, rfl⟩
    · exact ⟨by rintro _ ⟨⟩; exact hsum, trivial⟩
  have hlimit : (tokensOf P.render.toList).length ≤ config.maxDepth := by
    rw [tokensOf_render hP]
    decide
  exact ⟨hP, hlimit, rfl, parseText_render P hP config hlimit (.inl rfl)⟩

end Program

end Frontend
