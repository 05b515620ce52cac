/-
# `Frontend.Proofs.RoundTrip` — reading, writing and reading again

A text that is read without complaint is written out and read again with the
same settings.  The second reading can fail in one way only.  The written form
has a group around every operator, a group opens a level, and so it may need a
level that the text did not: `a + b` is read with three levels and its written
form `(a + b)` is not.  If the limit allows the levels of the written form,
there is no complaint and the two programs are written alike.

That the program is well formed is shown of whatever is read over the tokens of
a text, complaints or not: each statement keeps the tokens that its form was
decided by, and they are lexemes.  That no value is lost is where the settings
and the absence of complaints come in.
-/
import Frontend.Proofs.Reparse

namespace Frontend

/-! ## Phrases of lexemes -/

/-- A token as a text gives it: a lexeme, or the end of input. -/
def Token.Lexed (t : Token) : Prop :=
  t.kind ≠ .eof → t.IsLexeme

theorem Token.Lexed.eq_spelled {t : Token} (h : t.Lexed) {k : Kind} (hk : t.kind = k)
    (hspelled : k ∈ Kind.reserved ∨ .mark k ∈ Pattern.table) : t = .spelled k := by
  obtain ⟨l, s⟩ := t
  obtain rfl : l = k := hk
  have hne : l ≠ .eof := by
    rintro rfl
    exact absurd hspelled (by decide)
  rw [(Token.isLexeme_iff_spelling hspelled s).1 (h hne)]
  rfl

theorem Token.Lexed.of_opening {t : Token} (h : t.Lexed) {o : Opening}
    (ho : Grammar.standard.opening t.kind = some o) : t.IsLexeme := by
  refine h fun hk => ?_
  rw [hk] at ho
  cases ho

theorem Token.Lexed.of_joining {t : Token} (h : t.Lexed) {j : Joining}
    (hj : Grammar.standard.joining t.kind = some j) : t.IsLexeme := by
  refine h fun hk => ?_
  rw [hk] at hj
  cases hj

/-- An expression that is read from lexemes is well formed. -/
theorem Phrase.wellFormed_erase {c : Phrase} (hc : c.WellBound .standard)
    (h : ∀ t ∈ c.yield, t.Lexed) : c.erase.WellFormed := by
  induction c with
  | ident t =>
    have ht := h t List.mem_cons_self
    exact ⟨Grammar.opening_standard_atom.1 hc, ht.of_opening hc, rfl⟩
  | integer t v =>
    obtain ⟨ho, hv⟩ := hc
    exact ⟨Grammar.opening_standard_atom.2 ho, (h t List.mem_cons_self).of_opening ho, hv⟩
  | unary t x ih =>
    obtain ⟨ho, hx, -⟩ := hc
    rw [yield, List.forall_mem_cons] at h
    exact ⟨ho, h.1.of_opening ho, rfl, ih hx h.2⟩
  | binary t l r ihl ihr =>
    obtain ⟨hj, hl, hr, -⟩ := hc
    rw [yield, List.forall_mem_append, List.forall_mem_cons] at h
    exact ⟨hj, h.2.1.of_joining hj, rfl, ihl hl h.1, ihr hr h.2.2⟩
  | group o u x ih =>
    obtain ⟨-, -, hx⟩ := hc
    rw [yield, List.forall_mem_cons, List.forall_mem_append] at h
    exact ih hx h.2.1

namespace Parser

variable {σ : Type}

/-! ## What is read is well formed -/

section Lexed

variable [Source σ]

/-- A parser over the tokens of a text, with the standard table. -/
structure Lexed (p : Parser σ) (config : Config) : Prop where
  grammar_eq : p.grammar = .standard
  config_eq : p.config = config
  lexed : ∀ n, (p.move n).current.Lexed

namespace Lexed

variable {p q : Parser σ} {config : Config}

theorem leads (h : Lexed p config) (hq : Leads p q) : Lexed q config := by
  obtain ⟨n, hq⟩ := hq
  induction hq with
  | refl => exact h
  | advance _ ih => exact ⟨ih.grammar_eq, ih.config_eq, fun n => ih.lexed (n + 1)⟩
  | report e _ ih =>
    refine ⟨ih.grammar_eq, ih.config_eq, fun n => ?_⟩
    rw [move_report]
    exact ih.lexed n

theorem mem_upcoming (h : Lexed p config) (n : Nat) : ∀ t ∈ p.upcoming n, t.Lexed := by
  intro t ht
  obtain ⟨k, hk⟩ := List.mem_iff_getElem?.1 ht
  have hlt : k < n := by
    refine Nat.lt_of_not_le fun hle => ?_
    rw [List.getElem?_eq_none (by rw [length_upcoming]; exact hle)] at hk
    cases hk
  rw [getElem?_upcoming hlt] at hk
  cases hk
  exact h.lexed k

/-- What the current expression is, and what its absence costs. -/
theorem expression (h : Lexed p config) (b : Power) :
    (∀ e ∈ (p.expression b).1, e.WellFormed) ∧
      ((p.expression b).1 = none → p.diagnostics.size < (p.expression b).2.diagnostics.size) := by
  have ho := outcome_expression b p (h.grammar_eq ▸ Grammar.joins_standard)
  cases hr : p.expression b with
  | mk r q =>
    rw [hr] at ho
    cases r with
    | some e =>
      obtain ⟨c, hc, rfl, -⟩ := ho
      refine ⟨?_, by rintro ⟨⟩⟩
      rintro _ ⟨⟩
      refine Phrase.wellFormed_erase (h.grammar_eq ▸ hc.wellBound) ?_
      have hyield := h.mem_upcoming c.yield.length
      rwa [hc.begins] at hyield
    | none =>
      exact ⟨by rintro _ ⟨⟩, fun _ => Fails.size_lt ho⟩

theorem value (h : Lexed p config) :
    (∀ e ∈ p.value.1, e.WellFormed) ∧
      (p.value.1 = none → p.diagnostics.size < p.value.2.diagnostics.size) := by
  obtain ⟨hwell, hnone⟩ := h.expression .lowest
  refine ⟨hwell, fun hv => ?_⟩
  exact Nat.lt_of_lt_of_le (hnone hv) (leads_takeTerminator _).size_le

end Lexed

end Lexed

section Statements

variable [FiniteSource σ] {p q : Parser σ} {config : Config} {s : Stmt}

/-- A statement as it may be read between two states: well formed, with a value only
where values are read, and with its complaints among those that were made. -/
structure Read (p q : Parser σ) (config : Config) (s : Stmt) : Prop where
  wellFormed : s.WellFormed
  value_of_reads : config.readValues = true ∨ s.value? = none
  size_lt : s.complaints config ≠ [] → p.diagnostics.size < q.diagnostics.size

theorem expect_eq_true {k : Kind} (h : p.expect k = (true, q)) :
    q = p.advance ∧ p.peek.kind = k := by
  unfold expect at h
  split at h
  · next hk =>
    cases h
    exact ⟨rfl, hk⟩
  · cases h

theorem eq_none_of_isBareLet {t : Token} {name : Ident} {v : Option Expr}
    (h : (Stmt.letStmt t name v).isBareLet = true) : v = none := by
  cases v with
  | none => rfl
  | some e => cases h

/-- A `let` is read without a value where values are passed over; where they are
read, a missing value is complained of. -/
theorem Lexed.read_let (h : Lexed p config) (hp : p.current.kind = .kwLet)
    (hs : p.letStatement = (some s, q)) : Read p q config s := by
  have htoken := (h.lexed 0).eq_spelled hp (.inl (by decide))
  unfold letStatement at hs
  split at hs
  · cases hs
  · next p₁ h₁ =>
    obtain ⟨rfl, hident⟩ := expect_eq_true h₁
    have hname : (Ident.ofToken p.advance.current).WellFormed :=
      ⟨hident, h.lexed 1 (fun hk => by cases hident.symm.trans hk), rfl⟩
    split at hs
    · cases hs
    · next p₂ h₂ =>
      obtain ⟨rfl, -⟩ := expect_eq_true h₂
      have hconfig : p.advance.advance.config = config := h.config_eq
      rw [hconfig] at hs
      by_cases hreads : config.readValues = true
      · have hvalue := (h.leads (leads_move p 3)).value
        simp only [if_pos hreads] at hs
        cases hs
        refine ⟨⟨hvalue.1, htoken, hname⟩, .inl hreads, fun hc => ?_⟩
        have hlt := hvalue.2 (eq_none_of_isBareLet (Stmt.complaints_ne_nil_iff.1 hc).2)
        rwa [diagnostics_move] at hlt
      · simp only [if_neg hreads] at hs
        cases hs
        refine ⟨⟨by rintro _ ⟨⟩, htoken, hname⟩, .inr rfl, fun hc => ?_⟩
        exact absurd (Stmt.complaints_ne_nil_iff.1 hc).1 hreads

theorem Lexed.read_return (h : Lexed p config) (hp : p.current.kind = .kwReturn)
    (hs : p.returnStatement = (some s, q)) : Read p q config s := by
  have htoken := (h.lexed 0).eq_spelled hp (.inl (by decide))
  have hcomplaints (v : Option Expr) : (Stmt.returnStmt p.current v).complaints config ≠ [] →
      p.diagnostics.size < q.diagnostics.size :=
    fun hc => absurd (Stmt.complaints_ne_nil_iff.1 hc).2 (by simp [Stmt.isBareLet])
  have hconfig : p.advance.config = config := h.config_eq
  simp only [returnStatement, hconfig] at hs
  split at hs
  · next hreads =>
    have hvalue := (h.leads (.advance p)).value
    cases hs
    exact ⟨⟨hvalue.1, htoken⟩, .inl hreads.1, hcomplaints _⟩
  · cases hs
    exact ⟨⟨by rintro _ ⟨⟩, htoken⟩, .inr rfl, hcomplaints _⟩

theorem Lexed.read_expr (h : Lexed p config) (hs : p.exprStatement = (some s, q)) :
    Read p q config s := by
  have hvalue := h.value
  simp only [exprStatement, Prod.mk.injEq, Option.map_eq_some_iff] at hs
  obtain ⟨⟨e, he, rfl⟩, rfl⟩ := hs
  refine ⟨⟨?_, trivial⟩, .inr rfl, fun hc => ?_⟩
  · rintro _ ⟨⟩
    exact hvalue.1 e he
  · exact absurd (Stmt.complaints_ne_nil_iff.1 hc).2 (by simp [Stmt.isBareLet])

/-- The step of a run over the tokens of a text. -/
theorem Lexed.read (h : Lexed p config) (hs : p.statement = (some s, q)) :
    Read p q config s := by
  unfold statement at hs
  split at hs
  · next f hf =>
    rw [h.grammar_eq] at hf
    cases f with
    | letForm => exact h.read_let (Grammar.form_standard_eq_some.1 hf) hs
    | returnForm => exact h.read_return (Grammar.form_standard_eq_some.2 hf) hs
    | exprForm => exact h.read_expr hs
  · exact h.read_expr hs

/-- Whatever is read over the tokens of a text is well formed and has values only
where values are read.  If nothing was complained of, nothing will be when it is
read back. -/
theorem Lexed.statements (h : Lexed p config) :
    (∀ s ∈ p.statements.1, s.WellFormed ∧ (config.readValues = true ∨ s.value? = none)) ∧
      (p.statements.2.diagnostics.size = p.diagnostics.size →
        ∀ s ∈ p.statements.1, s.complaints config = []) := by
  fun_induction Parser.statements p with
  | case1 p _ => exact ⟨by rintro _ ⟨⟩, by rintro _ _ ⟨⟩⟩
  | case2 p _ r rest ih =>
    have hr : Leads p r.2 := leads_statement p
    obtain ⟨hwell, hclean⟩ := ih (h.leads (hr.trans (.advance _)))
    have hfirst : ∀ s ∈ r.1, Read p r.2 config s := fun s hs => h.read (Prod.ext hs rfl)
    have hle : r.2.diagnostics.size ≤ r.2.advance.statements.2.diagnostics.size :=
      (leads_statements r.2.advance).size_le
    constructor
    · intro s hs
      rcases List.mem_append.1 hs with hs | hs
      · have hread := hfirst s (Option.mem_toList.1 hs)
        exact ⟨hread.wellFormed, hread.value_of_reads⟩
      · exact hwell s hs
    · intro hsize s hs
      have hsize : r.2.advance.statements.2.diagnostics.size = p.diagnostics.size := hsize
      have hstay : r.2.diagnostics.size = p.diagnostics.size :=
        Nat.le_antisymm (hsize ▸ hle) hr.size_le
      rcases List.mem_append.1 hs with hs | hs
      · have hread := hfirst s (Option.mem_toList.1 hs)
        refine Classical.byContradiction fun hne => ?_
        exact absurd (hread.size_lt hne) (by rw [hstay]; exact Nat.lt_irrefl _)
      · exact hclean (hsize.trans hstay.symm) s hs

/-! ## Too few levels for what is written -/

/-- An expression that is written with more levels than the limit allows is complained
of when it is read back. -/
theorem statement_blocked {e : Expr} {t : Token} {ts : List Token}
    (h : Ready p config (s.tokens ++ t :: ts)) (hs : s.WellFormed)
    (hvalues : config.readValues = true ∨ s.value? = none) (he : e ∈ s.expr?)
    (hdeep : config.maxDepth < e.phrase.levels) :
    p.diagnostics.size < p.statement.2.diagnostics.size := by
  have hwell := hs.1 e he
  cases s with
  | letStmt u name v =>
    obtain ⟨-, rfl, hname⟩ := hs
    obtain rfl : v = some e := he
    have hlt := value_blocked h.let_value hwell hdeep
    rw [diagnostics_move] at hlt
    simp only [statement_let hname h, if_pos (hvalues.resolve_right (by simp [Stmt.value?]))]
    exact hlt
  | returnStmt u v =>
    obtain ⟨-, rfl⟩ := hs
    obtain rfl : v = some e := he
    have hlt : p.advance.diagnostics.size < p.advance.value.2.diagnostics.size :=
      value_blocked h.return_value hwell hdeep
    have hopen : p.advance.atTerminator = false := atTerminator_written h.return_value hwell
    have hreads : config.readValues = true := hvalues.resolve_right (by simp [Stmt.value?])
    rw [statement_return h, if_pos ⟨hreads, hopen⟩]
    exact hlt
  | exprStmt u e' =>
    obtain rfl : e' = e := Option.some.inj he
    rw [statement_expr hwell h]
    exact value_blocked h hwell hdeep

/-- One expression with too many levels is enough, wherever it stands: what is before it
is read without complaint, and no complaint is taken back. -/
theorem statements_blocked {ss : List Stmt} (hss : ∀ s ∈ ss, s.WellFormed)
    (hvalues : config.readValues = true ∨ ∀ s ∈ ss, s.value? = none)
    (hclean : ∀ s ∈ ss, s.complaints config = [])
    (hdeep : ∃ s ∈ ss, ∃ e ∈ s.expr?, config.maxDepth < e.phrase.levels)
    (h : Ready p config (ss.flatMap Stmt.tokens ++ [.eof])) :
    p.diagnostics.size < p.statements.2.diagnostics.size := by
  induction ss generalizing p with
  | nil =>
    obtain ⟨s, hs, -⟩ := hdeep
    cases hs
  | cons s ss ih =>
    have hs := hss s List.mem_cons_self
    have hrest : ∀ u ∈ ss, u.WellFormed := fun u hu => hss u (List.mem_cons_of_mem s hu)
    rw [List.flatMap_cons, List.append_assoc] at h
    obtain ⟨t, ts, htokens, ht⟩ := exists_parts hrest
    have hvalue : config.readValues = true ∨ s.value? = none :=
      hvalues.imp_right fun hv => hv s List.mem_cons_self
    rw [statements_of_ne_eof (h.current_ne_eof hs)]
    show _ < p.statement.2.advance.statements.2.diagnostics.size
    by_cases hhere : ∃ e ∈ s.expr?, config.maxDepth < e.phrase.levels
    · obtain ⟨e, he, hlevels⟩ := hhere
      exact Nat.lt_of_lt_of_le (statement_blocked (htokens ▸ h) hs hvalue he hlevels)
        (leads_statements p.statement.2.advance).size_le
    · -- The statement is read, so the expression stands behind it.
      have hfits : s.Fits config :=
        ⟨fun e he => Nat.le_of_not_lt fun hlt => hhere ⟨e, he, hlt⟩,
          fun hne => absurd (hclean s List.mem_cons_self) hne⟩
      obtain ⟨q, hq, hpast⟩ := statement_written (htokens ▸ h) hs ht hfits hvalue
      obtain ⟨u, hu, hlevels⟩ := hdeep
      rcases List.mem_cons.1 hu with rfl | hu
      · exact absurd hlevels hhere
      · have hlt := ih hrest (hvalues.imp_right fun hv u hu => hv u (List.mem_cons_of_mem s hu))
          (fun u hu => hclean u (List.mem_cons_of_mem s hu)) ⟨u, hu, hlevels⟩
          (htokens ▸ hpast.ready)
        have hle := (leads_statement p).size_le
        rw [hq] at hle ⊢
        exact Nat.lt_of_le_of_lt hle hlt

end Statements

/-- A new parser over a text has the tokens of the text before it. -/
theorem lexed_ofString (source : String) (config : Config) :
    Lexed (ofSource (Lexer.ofString source) config) config where
  grammar_eq := rfl
  config_eq := rfl
  lexed := by
    intro n hn
    exact isLexeme_of_mem_tokenize (current_mem_tokenize source config n) hn

end Parser

/-! ## The round trip -/

/-- What is read from a text can be written, and without complaint it can be read
back but for the limit. -/
theorem parseText_wellFormed (source : String) (config : Config) :
    (parseText source config).program.WellFormed ∧
      (config.readValues = true ∨
        ∀ s ∈ (parseText source config).program.statements, s.value? = none) ∧
      ((parseText source config).diagnostics.isEmpty = true →
        ∀ s ∈ (parseText source config).program.statements, s.complaints config = []) := by
  obtain ⟨hread, hclean⟩ := (Parser.lexed_ofString source config).statements
  refine ⟨fun s hs => (hread s hs).1, ?_, fun hempty => hclean (Diagnostics.isEmpty_iff.1 hempty)⟩
  by_cases hreads : config.readValues = true
  · exact .inl hreads
  · exact .inr fun s hs => (hread s hs).2.resolve_left hreads

/-- A written program with an expression that needs more levels than the limit allows
is complained of. -/
theorem Program.parseText_blocked {P : Program} (hP : P.WellFormed) {config : Config}
    (hvalues : config.readValues = true ∨ ∀ s ∈ P.statements, s.value? = none)
    (hclean : ∀ s ∈ P.statements, s.complaints config = [])
    (hdeep : ∃ s ∈ P.statements, ∃ e ∈ s.expr?, config.maxDepth < e.phrase.levels) :
    (parseText P.render config).diagnostics.isEmpty ≠ true := by
  intro hempty
  have hready := Parser.ready_ofString P.render config
  rw [tokenize, tokensOf_render hP] at hready
  have hlt := Parser.statements_blocked hP hvalues hclean hdeep hready
  have hsize : (parseText P.render config).diagnostics.size = 0 := Diagnostics.isEmpty_iff.1 hempty
  exact Nat.not_lt_zero _ (hsize ▸ hlt)

/-- **The round trip.**  A text is read without complaint, and the program is written
out and read again with the same settings.  The second reading is without complaint
exactly if the limit allows the levels of every expression as it is written; and then
the program that comes back is written like the first. -/
theorem parseText_roundTrip (source : String) (config : Config)
    (h : (parseText source config).diagnostics.isEmpty = true) :
    let P := (parseText source config).program
    let second := parseText P.render config
    (second.diagnostics.isEmpty = true ↔
        ∀ s ∈ P.statements, ∀ e ∈ s.expr?, e.phrase.levels ≤ config.maxDepth) ∧
      (second.diagnostics.isEmpty = true → second.program.render = P.render) := by
  intro P second
  obtain ⟨hP, hvalues, hcomplaints⟩ := parseText_wellFormed source config
  have hclean : ∀ s ∈ P.statements, s.complaints config = [] := hcomplaints h
  have hback (hlevels : ∀ s ∈ P.statements, ∀ e ∈ s.expr?, e.phrase.levels ≤ config.maxDepth) :
      second.program = P.reread ∧ second.diagnostics.isEmpty = true := by
    obtain ⟨hprogram, hlist⟩ := Program.parseText_written hP config
      (fun s hs => ⟨hlevels s hs, fun hne => absurd (hclean s hs) hne⟩) hvalues
    refine ⟨hprogram, Diagnostics.isEmpty_iff.2 ?_⟩
    rw [← Diagnostics.length_toList, hlist, List.flatMap_eq_nil_iff.2 hclean]
    rfl
  have hallowed (hempty : second.diagnostics.isEmpty = true) :
      ∀ s ∈ P.statements, ∀ e ∈ s.expr?, e.phrase.levels ≤ config.maxDepth := by
    intro s hs e he
    refine Nat.le_of_not_lt fun hlt => ?_
    exact Program.parseText_blocked hP hvalues hclean ⟨s, hs, e, he, hlt⟩ hempty
  refine ⟨⟨hallowed, fun hlevels => (hback hlevels).2⟩, fun hempty => ?_⟩
  rw [(hback (hallowed hempty)).1, Program.render_reread]

/-- With four levels `a + b` and its written form are both read. -/
theorem parseText_roundTrip_sum :
    let P := (parseText "a + b" ⟨false, 4⟩).program
    let second := parseText P.render ⟨false, 4⟩
    (parseText "a + b" ⟨false, 4⟩).diagnostics.isEmpty = true ∧
      second.diagnostics.isEmpty = true ∧
      (second.diagnostics.isEmpty = true ↔
        ∀ s ∈ P.statements, ∀ e ∈ s.expr?, e.phrase.levels ≤ 4) ∧
      (second.diagnostics.isEmpty = true → second.program.render = P.render) := by
  intro P second
  have h : (parseText "a + b" ⟨false, 4⟩).diagnostics.isEmpty = true := by decide +kernel
  have hsecond : second.diagnostics.isEmpty = true := by decide +kernel
  exact ⟨h, hsecond, parseText_roundTrip "a + b" ⟨false, 4⟩ h⟩

/-- With three levels `a + b` is read and its written form is not: the parentheses open
a level of their own. -/
theorem parseText_sum_not_reread :
    let first := parseText "a + b" ⟨false, 3⟩
    let second := parseText first.program.render ⟨false, 3⟩
    first.diagnostics.isEmpty = true ∧ first.program.render = "(a + b)" ∧
      second.diagnostics.messages =
        ["expression nested deeper than 3 levels",
          "no prefix parse function for CloseParen found"] := by
  decide +kernel

end Frontend
