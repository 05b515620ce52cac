/-
# `Frontend.Proofs.Conservation` — nothing that counts is lost

A text whose values are read is parsed without complaint, and the program is
written out.  The written form has parentheses and terminators of its own, and
the text had others.  All other tokens are the same, in the same order.

A sentence and the statement that is read from it are compared, and not a text
with another text: the tokens of the sentence and those that the statement is
written with are the same but for the delimiters, because both are the tokens
that the statement keeps, and the mark of a `let`.  The text is made of
sentences where nothing was complained of, and the written form of statements.
-/
import Frontend.Proofs.Provenance

namespace Frontend

/-- An expression is written with the tokens that it keeps, and parentheses. -/
theorem Expr.significant_phrase {e : Expr} (h : e.WellFormed) :
    significant e.phrase.yield = e.nodeTokens := by
  rw [Phrase.significant_yield (wellBound_phrase h), erase_phrase h]

/-- A terminator is all that may be lost behind an expression. -/
theorem Closes.significant_eq {ts rest : List Token} (h : Closes ts rest) :
    significant ts = significant rest := by
  cases h with
  | terminator hu => exact significant_delimiter (by rw [hu]; rfl) rest
  | bare => rfl

/-- The tokens of a sentence and those that its statement is written with are the same
but for the delimiters. -/
theorem Sentence.significant_eq {ts rest : List Token} {s : Stmt} (h : Sentence true ts s rest)
    (hts : ∀ t ∈ ts, t.Lexed) (hs : s.WellFormed) :
    significant ts = significant s.tokens ++ significant rest := by
  have hsemicolon (us : List Token) : significant (us ++ [.spelled .semicolon]) = significant us := by
    rw [significant_append, significant_delimiter (by decide)]
    exact List.append_nil _
  have hreturn {word : Token} (hword : word.kind = .kwReturn) (us : List Token) :
      significant (word :: us) = word :: significant us :=
    significant_cons (by rw [hword]; rfl) us
  have hphrase {c : Phrase} {us : List Token} (hc : c.WellBound .standard)
      (hwell : c.erase.WellFormed) (hus : Closes us rest) :
      significant (c.yield ++ us) = significant c.erase.phrase.yield ++ significant rest := by
    rw [significant_append, Phrase.significant_yield hc, Expr.significant_phrase hwell,
      hus.significant_eq]
  cases h with
  | @letValue word name mark c us _ hword hname hmark hc hus =>
    obtain rfl : mark = .spelled .assign := (hts mark (by simp)).eq_spelled hmark (.inr (by decide))
    have hfront (vs : List Token) : significant (word :: name :: .spelled .assign :: vs) =
        word :: name :: .spelled .assign :: significant vs := by
      rw [significant_cons (by rw [hword]; rfl), significant_cons (by rw [hname]; rfl),
        significant_cons (by decide)]
    have htokens : significant (Stmt.letStmt word (.ofToken name) (some c.erase)).tokens =
        word :: name :: .spelled .assign :: significant c.erase.phrase.yield :=
      (hfront _).trans (by rw [hsemicolon]; rfl)
    rw [hfront, hphrase hc (hs.1 _ rfl) hus, htokens]
    rfl
  | returnEmpty hword hu =>
    rw [hreturn hword, significant_delimiter (by rw [hu]; rfl), Stmt.tokens, hreturn hword,
      hsemicolon]
    rfl
  | returnLast hword =>
    rw [hreturn hword, Stmt.tokens, hreturn hword, hsemicolon]
    rfl
  | returnValue hword hc hus =>
    rw [hreturn hword, hphrase hc (hs.1 _ rfl) hus, Stmt.tokens, hreturn hword, hsemicolon]
    rfl
  | expr hc _ hus => exact hphrase hc (hs.1 _ rfl) hus

theorem Sentences.significant_eq {ts : List Token} {ss : List Stmt} (h : Sentences true ts ss)
    (hts : ∀ t ∈ ts, t.Lexed) (hss : ∀ s ∈ ss, s.WellFormed) :
    significant ts = significant (ss.flatMap Stmt.tokens) := by
  induction h with
  | nil => rfl
  | cons hs _ ih =>
    obtain ⟨hfirst, hlater⟩ := List.forall_mem_cons.1 hss
    obtain ⟨t, us, rfl, hsuffix⟩ := hs.exists_cons
    have hrest := ih (fun u hu => hts u (List.mem_cons_of_mem t (hsuffix.subset hu))) hlater
    rw [hs.significant_eq hts hfirst, hrest, List.flatMap_cons, significant_append]

/-- The tokens of a text that is parsed without complaint split into sentences. -/
theorem sentences_of_isEmpty {source : String} {config : Config}
    (h : (parseText source config).diagnostics.isEmpty = true) :
    Sentences config.readValues (tokensOf source.toList)
      (parseText source config).program.statements := by
  have hready : Parser.Ready (Parser.ofSource (Lexer.ofString source) config) config
      (tokensOf source.toList) :=
    Parser.ready_ofSource (Lexer.gives_ofChars _) config
  exact Parser.sentences_of_statements _ _ hready
    (fun t ht => (isLexeme_of_mem_tokensOf t ht).kind_ne_eof) (Diagnostics.isEmpty_iff.1 h)

/-- **Nothing is lost.**  If values are read, and a text is parsed without complaint, then
the tokens of the text and those of the written program are the same in kind and text,
in the same order, once parentheses and terminators are left out of both. -/
theorem significant_tokenize_render (source : String) (config : Config)
    (hreads : config.readValues = true)
    (h : (parseText source config).diagnostics.isEmpty = true) :
    significant (tokenize (parseText source config).program.render) =
      significant (tokenize source) := by
  have hP := (parseText_wellFormed source config).1
  have hsentences := sentences_of_isEmpty h
  rw [hreads] at hsentences
  rw [tokenize, tokenize, Program.tokensOf_render hP, significant_append, significant_append,
    hsentences.significant_eq (fun t ht _ => isLexeme_of_mem_tokensOf t ht) hP]
  rfl

/-- The text has a group and a terminator that are not written, and the written form has
groups and terminators that the text has not. -/
theorem significant_tokenize_render_return :
    let source := "let x = (1 + 0x2) * y; -z return"
    let config : Config := ⟨true, 8⟩
    config.readValues = true ∧ (parseText source config).diagnostics.isEmpty = true ∧
      (parseText source config).program.render = "let x = ((1 + 0x2) * y);\n(-z)\nreturn ;" ∧
      significant (tokenize (parseText source config).program.render) =
        significant (tokenize source) := by
  intro source config
  have h : (parseText source config).diagnostics.isEmpty = true := by decide +kernel
  exact ⟨rfl, h, by decide +kernel, significant_tokenize_render source config rfl h⟩

end Frontend
