/-
# `Frontend.Proofs.Stream` — the tokens that a parser has before it

A parser never goes back, so all that it can still see is one sequence of
tokens: the current one, the peek, and what the source has behind them.  The
state after `n` advances is `p.move n`, and its current token is the `n`-th of
that sequence.

Four ways of speaking about the sequence are used.  `p.upcoming n` is its first
`n` tokens, which is what an expression is read from; `p.Begins ts` says that
`ts` stands at its front; `p.Holds ts` says that it is `ts` and then the end of
input for ever, which is what a whole program is read from; `p.HoldsKinds ts`
says so of the kinds alone, and this much is known of every source that comes to
an end (`holdsKinds_ofSource`).  The texts of its ends of input are not known.

A problem that is reported changes none of this.
-/
import Frontend.Lexer.Basic
import Frontend.Parser.Progress

namespace Frontend.Parser

variable {σ : Type} [Source σ]

/-! ## Moving on -/

/-- The state so many advances later. -/
def move : Nat → Parser σ → Parser σ
  | 0, p => p
  | n + 1, p => p.advance.move n

@[simp] theorem move_zero (p : Parser σ) : p.move 0 = p := rfl

theorem move_succ (p : Parser σ) (n : Nat) : p.move (n + 1) = p.advance.move n := rfl

theorem move_move (p : Parser σ) (m n : Nat) : (p.move m).move n = p.move (m + n) := by
  induction m generalizing p with
  | zero => rw [move_zero, Nat.zero_add]
  | succ m ih => rw [move_succ, ih, Nat.succ_add, move_succ]

theorem advance_move (p : Parser σ) (n : Nat) : (p.move n).advance = p.move (n + 1) :=
  move_move p n 1

theorem peek_move (p : Parser σ) (n : Nat) : (p.move n).peek = (p.move (n + 1)).current := by
  rw [← advance_move]
  rfl

theorem move_report (p : Parser σ) (e : Problem) (n : Nat) :
    (p.report e).move n = (p.move n).report e := by
  induction n generalizing p with
  | zero => rfl
  | succ n ih => exact ih p.advance

theorem reaches_move (p : Parser σ) (n : Nat) : Reaches p n (p.move n) := by
  induction n with
  | zero => exact .refl
  | succ n ih => rw [← advance_move]; exact ih.advance

theorem leads_move (p : Parser σ) (n : Nat) : Leads p (p.move n) :=
  ⟨n, reaches_move p n⟩

/-- Problems that were reported do not change what comes next. -/
theorem Reaches.current_move {p q : Parser σ} {n : Nat} (h : Reaches p n q) (k : Nat) :
    (q.move k).current = (p.move (n + k)).current := by
  induction h generalizing k with
  | refl => rw [Nat.zero_add]
  | advance _ ih => rw [← move_succ, ih, Nat.succ_add_eq_add_succ]
  | report e _ ih => rw [move_report, ← ih]; rfl

@[simp] theorem config_move (p : Parser σ) (n : Nat) : (p.move n).config = p.config :=
  (reaches_move p n).config_eq

@[simp] theorem depth_move (p : Parser σ) (n : Nat) : (p.move n).depth = p.depth :=
  (reaches_move p n).depth_eq

@[simp] theorem grammar_move (p : Parser σ) (n : Nat) : (p.move n).grammar = p.grammar :=
  (reaches_move p n).grammar_eq

@[simp] theorem diagnostics_move (p : Parser σ) (n : Nat) :
    (p.move n).diagnostics = p.diagnostics := by
  induction n generalizing p with
  | zero => rfl
  | succ n ih => exact ih p.advance

/-- A problem that is reported later comes behind those that there are. -/
theorem toList_report_move (p : Parser σ) (n : Nat) (e : Problem) :
    ((p.move n).report e).diagnostics.toList = p.diagnostics.toList ++ [e] := by
  show ((p.move n).diagnostics.report e).toList = _
  rw [Diagnostics.toList_report, diagnostics_move]

/-- What was complained of is not taken back. -/
theorem Leads.toList_isPrefix {p q : Parser σ} (h : Leads p q) :
    p.diagnostics.toList <+: q.diagnostics.toList := by
  obtain ⟨n, h⟩ := h
  induction h with
  | refl => exact List.prefix_refl _
  | advance _ ih => exact ih
  | @report _ q e _ ih =>
    refine ih.trans ?_
    show q.diagnostics.toList <+: (q.diagnostics.report e).toList
    rw [Diagnostics.toList_report]
    exact List.prefix_append _ _

theorem Leads.size_le {p q : Parser σ} (h : Leads p q) :
    p.diagnostics.size ≤ q.diagnostics.size := by
  rw [← Diagnostics.length_toList, ← Diagnostics.length_toList]
  exact h.toList_isPrefix.length_le

/-! ## The tokens at the front -/

/-- The next so many tokens, the current one first. -/
def upcoming : Nat → Parser σ → List Token
  | 0, _ => []
  | n + 1, p => p.current :: p.advance.upcoming n

theorem upcoming_succ (p : Parser σ) (n : Nat) :
    p.upcoming (n + 1) = p.current :: p.advance.upcoming n := rfl

theorem upcoming_add (p : Parser σ) (m n : Nat) :
    p.upcoming (m + n) = p.upcoming m ++ (p.move m).upcoming n := by
  induction m generalizing p with
  | zero => rw [Nat.zero_add]; rfl
  | succ m ih => rw [Nat.succ_add, upcoming_succ, ih, upcoming_succ, move_succ, List.cons_append]

@[simp] theorem length_upcoming (p : Parser σ) (n : Nat) : (p.upcoming n).length = n := by
  induction n generalizing p with
  | zero => rfl
  | succ n ih => rw [upcoming_succ, List.length_cons, ih]

theorem getElem?_upcoming {p : Parser σ} {n k : Nat} (h : k < n) :
    (p.upcoming n)[k]? = some (p.move k).current := by
  induction n generalizing p k with
  | zero => exact absurd h (Nat.not_lt_zero k)
  | succ n ih =>
    cases k with
    | zero => rfl
    | succ k => exact ih (Nat.lt_of_succ_lt_succ h)

/-- The tokens of a list come next. -/
def Begins (p : Parser σ) (ts : List Token) : Prop :=
  p.upcoming ts.length = ts

theorem begins_cons {p : Parser σ} {t : Token} {ts : List Token} :
    p.Begins (t :: ts) ↔ p.current = t ∧ p.advance.Begins ts := by
  rw [Begins, List.length_cons, upcoming_succ, List.cons.injEq, Begins]

theorem begins_append {p : Parser σ} {ts us : List Token} :
    p.Begins (ts ++ us) ↔ p.Begins ts ∧ (p.move ts.length).Begins us := by
  rw [Begins, List.length_append, upcoming_add]
  constructor
  · intro h
    exact List.append_inj h (length_upcoming p _)
  · rintro ⟨hts, hus⟩
    rw [hts, hus]

theorem begins_singleton {p : Parser σ} {t : Token} : p.Begins [t] ↔ p.current = t := by
  rw [begins_cons]
  exact and_iff_left rfl

/-! ## All tokens to come -/

/-- Behind a list stands the end of input, whether it is written there or not. -/
theorem getD_concat_eof (ts : List Token) (n : Nat) :
    (ts ++ [Token.eof])[n]?.getD .eof = ts[n]?.getD .eof := by
  rcases Nat.lt_trichotomy n ts.length with hn | rfl | hn
  · rw [List.getElem?_append_left hn]
  · rw [List.getElem?_concat_length, List.getElem?_eq_none (Nat.le_refl _)]
    rfl
  · have hlength : (ts ++ [Token.eof]).length ≤ n := by
      rw [List.length_append]
      exact hn
    rw [List.getElem?_eq_none (Nat.le_of_lt hn), List.getElem?_eq_none hlength]

/-- The tokens of a list come next, and then for ever the end of input without a text. -/
def Holds (p : Parser σ) (ts : List Token) : Prop :=
  ∀ n, (p.move n).current = ts[n]?.getD .eof

theorem holds_report {p : Parser σ} {ts : List Token} (e : Problem) :
    (p.report e).Holds ts ↔ p.Holds ts := by
  simp only [Holds, move_report]
  rfl

namespace Holds

variable {p : Parser σ} {t : Token} {ts us : List Token}

theorem current_eq (h : p.Holds ts) : p.current = ts.head?.getD .eof := by
  rw [List.head?_eq_getElem?]
  exact h 0

theorem move (h : p.Holds (ts ++ us)) : (p.move ts.length).Holds us := by
  intro n
  rw [move_move, h, List.getElem?_append_right (Nat.le_add_right _ _), Nat.add_sub_cancel_left]

theorem begins (h : p.Holds (ts ++ us)) : p.Begins ts := by
  apply List.ext_getElem?
  intro k
  by_cases hk : k < ts.length
  · rw [getElem?_upcoming hk, h, List.getElem?_append_left hk, List.getElem?_eq_getElem hk]
    rfl
  · rw [List.getElem?_eq_none (by rw [length_upcoming]; exact Nat.not_lt.1 hk),
      List.getElem?_eq_none (Nat.not_lt.1 hk)]

/-- The end of input may be counted among the tokens. -/
theorem concat_eof (h : p.Holds ts) : p.Holds (ts ++ [.eof]) := by
  intro n
  rw [h, getD_concat_eof]

theorem drop (h : p.Holds ts) (n : Nat) : (p.move n).Holds (ts.drop n) := by
  intro m
  rw [move_move, h, List.getElem?_drop]

/-- Whatever comes is a token of the list or the end of input. -/
theorem current_mem (h : p.Holds ts) (n : Nat) :
    (p.move n).current ∈ ts ∨ (p.move n).current = .eof := by
  rw [h]
  cases hn : ts[n]? with
  | none => exact .inr rfl
  | some t => exact .inl (List.mem_of_getElem? hn)

end Holds

/-- The kinds of a list come next, and then that of the end of input for ever. -/
def HoldsKinds (p : Parser σ) (ts : List Token) : Prop :=
  ∀ n, (p.move n).current.kind = (ts[n]?.getD .eof).kind

/-- What was still to come is so without the tokens that were passed. -/
theorem Reaches.holds_drop {p q : Parser σ} {n : Nat} {ts : List Token} (h : Reaches p n q)
    (hp : p.Holds ts) : q.Holds (ts.drop n) := by
  intro m
  rw [h.current_move, hp, List.getElem?_drop]

theorem Reaches.holdsKinds_drop {p q : Parser σ} {n : Nat} {ts : List Token} (h : Reaches p n q)
    (hp : p.HoldsKinds ts) : q.HoldsKinds (ts.drop n) := by
  intro m
  rw [h.current_move, hp, List.getElem?_drop]

theorem Leads.exists_holds_drop {p q : Parser σ} (h : Leads p q) :
    ∃ n, ∀ ts, p.Holds ts → q.Holds (ts.drop n) := by
  obtain ⟨n, h⟩ := h
  exact ⟨n, fun ts => h.holds_drop⟩

end Frontend.Parser

/-! ## The sequence of a source -/

namespace Frontend

/-- The tokens of a list are all that a source gives before it goes on for ever with the end
of input without a text. -/
def Source.Gives {σ : Type} [Source σ] (s : σ) (ts : List Token) : Prop :=
  ∀ n, Source.get s n = ts[n]?.getD .eof

theorem Source.Gives.concat_eof {σ : Type} [Source σ] {s : σ} {ts : List Token}
    (h : Source.Gives s ts) : Source.Gives s (ts ++ [.eof]) := by
  intro n
  rw [h, Parser.getD_concat_eof]

/-- What two sources give is the same if the lists are. -/
theorem Source.Gives.get_eq {σ τ : Type} [Source σ] [Source τ] {s : σ} {t : τ} {ts : List Token}
    (hs : Source.Gives s ts) (ht : Source.Gives t ts) (n : Nat) :
    Source.get s n = Source.get t n :=
  (hs n).trans (ht n).symm

theorem Tape.gives (ts : List Token) : Source.Gives (Tape.mk ts) ts := by
  intro n
  induction n generalizing ts with
  | zero => cases ts <;> rfl
  | succ n ih =>
    cases ts with
    | nil => exact ih []
    | cons t ts => exact ih ts

/-- A lexer gives the first token of its text and goes on with a text that has the
others. -/
theorem Lexer.next?_ofChars (cs : List Char) :
    ∃ rest, (ofChars cs).next? = some ((tokensOf cs).head?.getD .eof, ofChars rest) ∧
      tokensOf rest = (tokensOf cs).tail := by
  cases cs with
  | nil => exact ⟨[], by simp [next?, ofChars], by simp⟩
  | cons c cs =>
    cases hn : nextToken? (c :: cs) with
    | none =>
      have ht := tokensOf_of_nextToken?_eq_none hn
      exact ⟨[], by simp [next?, ofChars, hn, ht], by simp [ht]⟩
    | some r =>
      obtain ⟨t, rest⟩ := r
      have ht := tokensOf_of_nextToken?_eq_some hn
      exact ⟨rest, by simp [next?, ofChars, hn, ht], by rw [ht]; rfl⟩

theorem Lexer.next_ofChars (cs : List Char) :
    ∃ rest, (ofChars cs).next = ((tokensOf cs).head?.getD .eof, ofChars rest) ∧
      tokensOf rest = (tokensOf cs).tail := by
  obtain ⟨rest, hnext, htail⟩ := next?_ofChars cs
  exact ⟨rest, by rw [next, hnext]; rfl, htail⟩

theorem Lexer.gives_ofChars (cs : List Char) : Source.Gives (ofChars cs) (tokensOf cs) := by
  intro n
  induction n generalizing cs with
  | zero =>
    obtain ⟨_, hnext, -⟩ := next_ofChars cs
    rw [← List.head?_eq_getElem?]
    exact congrArg Prod.fst hnext
  | succ n ih =>
    obtain ⟨rest, hnext, htail⟩ := next_ofChars cs
    rw [← List.getElem?_tail, ← htail, ← ih rest]
    exact congrArg (fun r => Source.get r.2 n) hnext

namespace FiniteSource

variable {σ : Type} [FiniteSource σ]

/-- The tokens of a finite source, as many as it may still give. -/
def tokens (s : σ) : List Token :=
  (List.range (left s)).map (Source.get s)

theorem left_drop_le (s : σ) (n : Nat) : left (Source.drop n s) ≤ left s - n := by
  induction n generalizing s with
  | zero => exact Nat.le_refl _
  | succ n ih =>
    have hrest := ih (Source.next s).2
    have hlt := left_next_lt s
    have hzero := left_next_of_left_eq_zero s
    rw [Source.drop_succ]
    omega

/-- Behind its tokens a finite source gives nothing but ends of input. -/
theorem kind_get (s : σ) (n : Nat) :
    (Source.get s n).kind = ((tokens s)[n]?.getD .eof).kind := by
  by_cases hn : n < left s
  · simp [tokens, hn]
  · have hleft : left (Source.drop n s) = 0 := by
      have hle := left_drop_le s n
      omega
    rw [tokens, List.getElem?_eq_none (by simpa using hn)]
    exact next_of_left_eq_zero _ hleft

end FiniteSource

/-- A sequence that comes to an end: from some place on every token is an end of input, and
each may have a text of its own.  What a finite source gives is such a sequence, whatever the
source is. -/
structure Sequence where
  token : Nat → Token
  bound : Nat
  kind_token : ∀ n, bound ≤ n → (token n).kind = .eof

namespace Sequence

/-- The first token of a sequence, and the rest of it. -/
def next (s : Sequence) : Token × Sequence :=
  (s.token 0,
    { token := fun n => s.token (n + 1)
      bound := s.bound - 1
      kind_token := fun n hn => s.kind_token (n + 1) (Nat.sub_le_iff_le_add.1 hn) })

instance : FiniteSource Sequence where
  next := next
  left := bound
  left_next_lt _ h := Nat.pred_lt h
  next_of_left_eq_zero s h := s.kind_token 0 (Nat.le_of_eq h)
  left_next_of_left_eq_zero _ h := congrArg Nat.pred h

/-- The tokens of a list, and then one and the same end of input for ever. -/
def closed (ts : List Token) (last : Token) (h : last.kind = .eof) : Sequence where
  token n := ts[n]?.getD last
  bound := ts.length
  kind_token n hn := by rwa [List.getElem?_eq_none hn]

@[simp] theorem get_eq (s : Sequence) (n : Nat) : Source.get s n = s.token n := by
  induction n generalizing s with
  | zero => rfl
  | succ n ih => exact ih s.next.2

end Sequence

namespace Parser

variable {σ : Type} [Source σ]

/-- Behind the window comes what the source gives. -/
theorem current_move (p : Parser σ) (n : Nat) :
    (p.move (n + 2)).current = Source.get p.source n := by
  induction n generalizing p with
  | zero => rfl
  | succ n ih => exact ih p.advance

/-- A new parser has before it what its source gives. -/
theorem current_ofSource (s : σ) (config : Config) (n : Nat) :
    ((ofSource s config).move n).current = Source.get s n := by
  match n with
  | 0 => rfl
  | 1 => rfl
  | n + 2 => exact current_move _ n

theorem holds_ofSource {s : σ} {ts : List Token} (h : Source.Gives s ts) (config : Config) :
    (ofSource s config).Holds ts :=
  fun n => (current_ofSource s config n).trans (h n)

/-- Over a finite source the kinds are those of its tokens. -/
theorem holdsKinds_ofSource {τ : Type} [FiniteSource τ] (s : τ) (config : Config) :
    (ofSource s config).HoldsKinds (FiniteSource.tokens s) :=
  fun n => (congrArg Token.kind (current_ofSource s config n)).trans (FiniteSource.kind_get s n)

/-- Over a text the current token always is one of the text. -/
theorem current_mem_tokenize (source : String) (config : Config) (n : Nat) :
    ((ofSource (Lexer.ofString source) config).move n).current ∈ tokenize source := by
  have hholds := holds_ofSource (Lexer.gives_ofChars source.toList) config
  rcases hholds.current_mem n with hmem | heof
  · exact List.mem_append_left _ hmem
  · exact List.mem_append_right _ (List.mem_singleton.2 heof)

end Parser

end Frontend
