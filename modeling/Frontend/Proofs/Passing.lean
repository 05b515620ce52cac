/-
# `Frontend.Proofs.Passing` — values read and values passed over

A parser that does not want the values of `let` and `return` passes over tokens
up to the next terminator, and reads no expression there.  One that wants them
reads an expression and takes a terminator if there is one.  Where the second
finds nothing to complain of and stops at a terminator or at the end of input,
the first stops in front of the same token, and so the two go on alike.

Each statement is compared through the tokens that it was read from.  A sentence
whose values are read is one whose values are passed over, with the same tokens
left behind it, if its last token is a terminator or nothing is left: a phrase
has no terminator in it, so what is passed over runs on to the end of the
sentence and not beyond.

Without the condition the two differ.  A value may end where the next statement
begins, and then the one runs into what the other leaves.
-/
import Frontend.Proofs.Sentence

namespace Frontend

/-! ## Statements without their values -/

namespace Stmt

/-- A `let` or a `return`, whose value may be passed over. -/
def takesValue : Stmt → Bool
  | letStmt _ _ _ => true
  | returnStmt _ _ => true
  | exprStmt _ _ => false

/-- The statement as it is where values are passed over. -/
def withoutValue : Stmt → Stmt
  | letStmt t name _ => letStmt t name none
  | returnStmt t _ => returnStmt t none
  | exprStmt t e => exprStmt t e

end Stmt

/-! ## Sentences in the two modes -/

section Lists

variable {us vs rest : List Token}

/-- What has no terminator in it is passed over with what follows. -/
theorem Passes.append (hus : ∀ t ∈ us, t.kind ≠ .semicolon) (h : Passes vs rest) :
    Passes (us ++ vs) rest := by
  induction us with
  | nil => exact h
  | cons t us ih =>
    obtain ⟨ht, hus⟩ := List.forall_mem_cons.1 hus
    exact .token ht (ih hus)

/-- A value that is closed by a terminator, or by the end, can be passed over. -/
theorem Closes.passes_append {c : Phrase} (h : Closes vs rest) (hc : c.WellBound .standard)
    (hend : vs = rest → rest = []) : Passes (c.yield ++ vs) rest := by
  refine Passes.append (fun t ht => (hc.kind_ne t ht).1) ?_
  cases h with
  | terminator hu => exact .terminator hu
  | bare => exact hend rfl ▸ .last

/-- The last token in front of what is left is no terminator, if a phrase ends there. -/
theorem Phrase.WellBound.getLast?_ne {c : Phrase} (hc : c.WellBound .standard) (us : List Token) :
    ∀ u ∈ (us ++ c.yield).getLast?, u.kind ≠ .semicolon := by
  intro u hu
  rw [List.getLast?_append, List.getLast?_eq_some_getLast c.yield_ne_nil] at hu
  obtain rfl := Option.some.inj hu
  exact (hc.kind_ne _ (List.getLast_mem _)).1

end Lists

namespace Parser

variable {σ : Type}

/-- A statement ended here, at a terminator or before the end of input. -/
def Ended (p : Parser σ) : Prop :=
  p.current.kind = .semicolon ∨ p.peek.kind = .eof

instance (p : Parser σ) : Decidable p.Ended :=
  inferInstanceAs (Decidable (_ ∨ _))

section Steps

variable [Source σ] {p q r : Parser σ} {config : Config} {ts us rest : List Token}

/-- Two lists without an end of input that a parser has before it are the same. -/
theorem Holds.eq_of_holds (hts : p.Holds ts) (hus : p.Holds us) (hne : ∀ t ∈ ts, t.kind ≠ .eof)
    (hne' : ∀ u ∈ us, u.kind ≠ .eof) : ts = us := by
  have hus : p.Holds (us ++ []) := (List.append_nil us).symm ▸ hus
  obtain ⟨xs, rfl⟩ := hts.eq_append hus.begins hne'
  cases xs with
  | nil => exact List.append_nil us
  | cons x xs =>
    have heof : x = .eof := hts.move.current_eq.symm.trans hus.move.current_eq
    exact absurd (congrArg Token.kind heof) (hne x (by simp))

/-- A statement that ended at no terminator has left nothing. -/
theorem Ready.rest_eq_nil (us : List Token) {k : Nat} (h : Ready p config (us ++ rest))
    (hrest : Ready (p.move (k + 1)) config rest) (hts : ∀ t ∈ us ++ rest, t.kind ≠ .eof)
    (hlast : ∀ u ∈ us.getLast?, u.kind ≠ .semicolon) (hend : (p.move k).Ended) : rest = [] := by
  obtain ⟨-, hne⟩ := List.forall_mem_append.1 hts
  cases rest with
  | nil => rfl
  | cons t vs =>
    exfalso
    rcases hend with hsemi | heof
    · -- As many tokens were passed as stand in front of the rest, so the last of these is current.
      have hdrop : (us ++ t :: vs).drop (k + 1) = t :: vs :=
        (h.drop (k + 1)).holds.eq_of_holds hrest.holds
          (fun u hu => hts u (List.mem_of_mem_drop hu)) hne
      have hlength := congrArg List.length hdrop
      rw [List.length_drop, List.length_append, List.length_cons] at hlength
      obtain ⟨u, hu⟩ : ∃ u, us[k]? = some u := ⟨_, List.getElem?_eq_getElem (by omega)⟩
      have hu' : u ∈ us.getLast? := by
        rw [List.getLast?_eq_getElem?, show us.length - 1 = k by omega, hu]
        rfl
      rw [h.holds, List.getElem?_append_left (by omega), hu] at hsemi
      exact hlast u hu' hsemi
    · rw [peek_move, hrest.holds.current_eq] at heof
      exact hne t List.mem_cons_self heof

/-- The value of a statement that ended can be passed over, and the same tokens are left. -/
theorem Ready.passes_of_ended (front : List Token) {c : Phrase} {k : Nat}
    (h : Ready p config (front ++ (c.yield ++ us))) (hrest : Ready (p.move (k + 1)) config rest)
    (hts : ∀ t ∈ front ++ (c.yield ++ us), t.kind ≠ .eof) (hc : c.WellBound .standard)
    (hcloses : Closes us rest) (hend : (p.move k).Ended) : Passes (c.yield ++ us) rest := by
  refine hcloses.passes_append hc ?_
  rintro rfl
  rw [← List.append_assoc] at h hts
  exact Ready.rest_eq_nil (front ++ c.yield) h hrest hts (hc.getLast?_ne front) hend

/-- A statement that is an expression by itself was read as a value. -/
theorem Dispatch.value_eq {s : Option Stmt} (h : Dispatch p s r) {t : Token} {e : Expr}
    (hs : s = some (.exprStmt t e)) : p.value.1 = some e := by
  cases h with
  | expr =>
    obtain ⟨v, hv, heq⟩ := Option.map_eq_some_iff.1 hs
    cases heq
    exact hv
  | _ => cases hs

/-- The step in both modes.  A sentence whose value was read is read without it where values
are passed over, and the same tokens are left. -/
theorem Ready.dispatch_withoutValue {limit k : Nat} {s : Stmt} (hp : Ready p ⟨true, limit⟩ ts)
    (hq : Ready q ⟨false, limit⟩ ts) (hts : ∀ t ∈ ts, t.kind ≠ .eof)
    (hs : Sentence true ts s rest) (hd : Dispatch p (some s) (p.move k))
    (hrest : Ready (p.move (k + 1)) ⟨true, limit⟩ rest)
    (hends : s.takesValue = true → (p.move k).Ended) :
    ∃ k', Dispatch q (some s.withoutValue) (q.move k') ∧
      Ready (q.move (k' + 1)) ⟨false, limit⟩ rest := by
  cases hs with
  | @letValue word name mark c us _ hword hname hmark hc hcloses =>
    exact hq.dispatch_letPassed hts hword hname hmark rfl
      (Ready.passes_of_ended [word, name, mark] hp hrest hts hc hcloses (hends rfl))
  | returnEmpty hword hu => exact hq.dispatch_returnPassed hts hword (.inl rfl) (.terminator hu)
  | returnLast hword => exact hq.dispatch_returnPassed hts hword (.inl rfl) .last
  | @returnValue word c us _ hword hc hcloses =>
    exact hq.dispatch_returnPassed hts hword (.inl rfl)
      (Ready.passes_of_ended [word] hp hrest hts hc hcloses (hends rfl))
  | expr hc hfirst hcloses =>
    have hread : p.value.1 ≠ none := by simp [hd.value_eq rfl]
    exact hq.dispatch_expr hc hfirst hcloses (hp.levels_le_of_value hc hcloses hread)

end Steps

/-! ## Whole runs -/

section Runs

variable [FiniteSource σ] {limit : Nat}

/-- Every `let` and every `return` of a run ended at a terminator or before the end of input. -/
def ValuesEnd (p : Parser σ) : Prop :=
  ∀ q ∈ p.dispatches, ∀ s ∈ q.statement.1, s.takesValue = true → q.statement.2.Ended

instance (p : Parser σ) : Decidable p.ValuesEnd :=
  inferInstanceAs (Decidable (∀ q ∈ p.dispatches, ∀ s ∈ q.statement.1, _ → q.statement.2.Ended))

theorem valuesEnd_of_ne_eof {p : Parser σ} (hne : p.current.kind ≠ .eof) :
    p.ValuesEnd ↔ (∀ s ∈ p.statement.1, s.takesValue = true → p.statement.2.Ended) ∧
      p.statement.2.advance.ValuesEnd := by
  rw [ValuesEnd, dispatches, if_neg hne, List.forall_mem_cons]
  rfl

/-- The run in both modes. -/
theorem statements_withoutValue (p : Parser σ) :
    ∀ (q : Parser σ) (ts : List Token), Ready p ⟨true, limit⟩ ts → Ready q ⟨false, limit⟩ ts →
      (∀ t ∈ ts, t.kind ≠ .eof) → p.statements.2.diagnostics.size = p.diagnostics.size →
        p.ValuesEnd →
          q.statements.1 = p.statements.1.map Stmt.withoutValue ∧
            q.statements.2.diagnostics = q.diagnostics := by
  fun_induction statements p with
  | case1 p hend =>
    intro q ts hp hq hts _ _
    cases ts with
    | nil =>
      rw [statements_of_eof (congrArg Token.kind hq.holds.current_eq)]
      exact ⟨rfl, rfl⟩
    | cons t ts => exact absurd (hp.current_eq ▸ hend) (hts t List.mem_cons_self)
  | case2 p hne s rest ih =>
    intro q ts hp hq hts hclean hvalues
    rw [← statements_of_ne_eof hne] at hclean
    obtain ⟨hfirst, hlater⟩ := clean_of_statements hne hclean
    obtain ⟨hends, hvalues⟩ := (valuesEnd_of_ne_eof hne).1 hvalues
    have hd := dispatch_statement p
    obtain ⟨t, k, us, hs, hr, hsentence, hready⟩ := hp.sentence_of_dispatch hts hne hd hfirst
    rw [hs, hr] at hd hends
    obtain ⟨k', hd', hready'⟩ := hp.dispatch_withoutValue hq hts hsentence hd hready (hends t rfl)
    have hne' : q.current.kind ≠ .eof := by
      obtain ⟨u, vs, rfl, -⟩ := hsentence.exists_cons
      rw [hq.current_eq]
      exact hts u List.mem_cons_self
    rw [← advance_move, ← hr] at hready
    obtain ⟨hlist, hclean'⟩ :=
      ih (q.move (k' + 1)) us hready hready' (hsentence.rest_spec hts).1 hlater hvalues
    rw [statements_of_ne_eof hne', hd'.statement_eq, advance_move, hlist, hclean',
      diagnostics_move]
    refine ⟨?_, rfl⟩
    show _ = (s.1.toList ++ rest.1).map Stmt.withoutValue
    rw [List.map_append, show s.1 = some t from hs]
    rfl

end Runs

end Parser

/-- **The two modes agree.**  If a list of tokens is parsed with its values read, nothing is
complained of, and every `let` and every `return` ends at a terminator or before the end of
input, then it is parsed without complaint under the same limit where values are passed
over, and the program is the same but for the values. -/
theorem parse_values_passed_over (ts : List Token) (hts : ∀ t ∈ ts, t.kind ≠ .eof) (limit : Nat)
    (hclean : (parse (Tape.mk ts) ⟨true, limit⟩).diagnostics.isEmpty = true)
    (hends : (Parser.ofSource (Tape.mk ts) ⟨true, limit⟩).ValuesEnd) :
    (parse (Tape.mk ts) ⟨false, limit⟩).diagnostics.isEmpty = true ∧
      (parse (Tape.mk ts) ⟨false, limit⟩).program.statements =
        (parse (Tape.mk ts) ⟨true, limit⟩).program.statements.map Stmt.withoutValue := by
  have hready (config : Config) :
      Parser.Ready (Parser.ofSource (Tape.mk ts) config) config ts :=
    Parser.ready_ofSource (Tape.gives ts) config
  obtain ⟨hlist, hdiagnostics⟩ := Parser.statements_withoutValue _ _ ts (hready ⟨true, limit⟩)
    (hready ⟨false, limit⟩) hts (Diagnostics.isEmpty_iff.1 hclean) hends
  exact ⟨congrArg Diagnostics.isEmpty hdiagnostics, hlist⟩

/-- `let x = ( 1 + y ) ; f return - z`: a terminator ends the `let`, the end of input the
`return`, and `f` stands by itself between them. -/
theorem parse_values_passed_over_group :
    let word : Token := ⟨.kwReturn, "return"⟩
    let z : Token := ⟨.identifier, "z"⟩
    let f : Token := ⟨.identifier, "f"⟩
    let bind (v : Option Expr) : Stmt :=
      .letStmt ⟨.kwLet, "let"⟩ (.ofToken ⟨.identifier, "x"⟩) v
    let sum : Expr := .binary ⟨.plus, "+"⟩ "+" (.integer ⟨.integer, "1"⟩ 1)
      (.ident (.ofToken ⟨.identifier, "y"⟩))
    let ts : List Token := [⟨.kwLet, "let"⟩, ⟨.identifier, "x"⟩, ⟨.assign, "="⟩, ⟨.openParen, "("⟩,
      ⟨.integer, "1"⟩, ⟨.plus, "+"⟩, ⟨.identifier, "y"⟩, ⟨.closeParen, ")"⟩, ⟨.semicolon, ";"⟩, f,
      word, ⟨.minus, "-"⟩, z]
    (∀ t ∈ ts, t.kind ≠ .eof) ∧ (parse (Tape.mk ts) ⟨true, 4⟩).diagnostics.isEmpty = true ∧
      (Parser.ofSource (Tape.mk ts) ⟨true, 4⟩).ValuesEnd ∧
      (parse (Tape.mk ts) ⟨true, 4⟩).program.statements = [bind (some sum),
        .exprStmt f (.ident (.ofToken f)),
        .returnStmt word (some (.unary ⟨.minus, "-"⟩ "-" (.ident (.ofToken z))))] ∧
      (parse (Tape.mk ts) ⟨false, 4⟩).diagnostics.isEmpty = true ∧
      (parse (Tape.mk ts) ⟨false, 4⟩).program.statements =
        [bind none, .exprStmt f (.ident (.ofToken f)), .returnStmt word none] := by
  intro word z f bind sum ts
  have hts : ∀ t ∈ ts, t.kind ≠ .eof := by decide
  have hclean : (parse (Tape.mk ts) ⟨true, 4⟩).diagnostics.isEmpty = true := by decide +kernel
  have hends : (Parser.ofSource (Tape.mk ts) ⟨true, 4⟩).ValuesEnd := by decide +kernel
  have hread : (parse (Tape.mk ts) ⟨true, 4⟩).program.statements = [bind (some sum),
      .exprStmt f (.ident (.ofToken f)),
      .returnStmt word (some (.unary ⟨.minus, "-"⟩ "-" (.ident (.ofToken z))))] := by
    decide +kernel
  obtain ⟨hpassed, hlist⟩ := parse_values_passed_over ts hts 4 hclean hends
  rw [hread] at hlist
  exact ⟨hts, hclean, hends, hread, hpassed, hlist⟩

/-- `let x = y let z = y`: the first value ends at no terminator, and is passed over with the
second statement. -/
example :
    let bind (name : String) : List Token :=
      [⟨.kwLet, "let"⟩, ⟨.identifier, name⟩, ⟨.assign, "="⟩, ⟨.identifier, "y"⟩]
    (parse (Tape.mk (bind "x" ++ bind "z")) ⟨true, 4⟩).program.size = 2 ∧
      (parse (Tape.mk (bind "x" ++ bind "z")) ⟨false, 4⟩).program.size = 1 := by
  decide +kernel

end Frontend
