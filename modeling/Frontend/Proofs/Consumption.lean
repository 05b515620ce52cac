/-
# `Frontend.Proofs.Consumption` — a parse pulls all that there is, and little more

A parser pulls two tokens when it is made and one whenever it moves on.  It must
not stop before the end of input, and it must not go on beyond it: whatever fails
at the end fails outwards through every level, and none of these may move on
once more.

`Strides p n q` says that the second state is the first after `n` advances, each
made with something left in the window.  With the standard table all that a
statement does is of this kind (`Warranted.exists_strides`), so a statement leaves
the parser at the end of input at the latest.  Behind each statement there is one
more advance, and it may be made at the end; but then the run is over.  Hence a run
over `n` tokens makes `n` or `n + 1` advances.

Only the kinds count, so nothing is asked of a source but the number of tokens
that it gives before the end of input (`Lasts`), whatever their texts.  A run is a
relation, for such a source need not say how much it has left.  That there is a
run has to be shown (`Lasts.exists_runs`); over a source that does say it, the run
is the function (`runs_iff`).  What is pulled is read off a source that keeps a
log.
-/
import Frontend.Proofs.Morphism
import Frontend.Proofs.Warrant

namespace Frontend

/-! ## What was pulled -/

namespace Source

variable {σ : Type}

/-- The first so many tokens. -/
def taken [Source σ] : Nat → σ → List Token
  | 0, _ => []
  | n + 1, s => (next s).1 :: taken n (next s).2

theorem taken_succ [Source σ] (n : Nat) (s : σ) :
    taken (n + 1) s = (next s).1 :: taken n (next s).2 := rfl

/-- A source with the tokens that were pulled from it. -/
structure Logged (σ : Type) where
  source : σ
  pulled : List Token

namespace Logged

/-- A source from which nothing was pulled. -/
def start (source : σ) : Logged σ :=
  ⟨source, []⟩

/-- The next token, which goes into the log. -/
def next [Source σ] (s : Logged σ) : Token × Logged σ :=
  ((Source.next s.source).1,
    { source := (Source.next s.source).2
      pulled := s.pulled ++ [(Source.next s.source).1] })

instance [Source σ] : Source (Logged σ) where
  next := next

instance [FiniteSource σ] : FiniteSource (Logged σ) where
  left s := FiniteSource.left s.source
  left_next_lt s := FiniteSource.left_next_lt s.source
  next_of_left_eq_zero s := FiniteSource.next_of_left_eq_zero s.source
  left_next_of_left_eq_zero s := FiniteSource.left_next_of_left_eq_zero s.source

theorem morphism [Source σ] : Source.Morphism (fun _ s => s) (Logged.source : Logged σ → σ) where
  next_map _ := rfl

/-- The log is what was pulled, in order. -/
theorem drop_eq [Source σ] (n : Nat) (s : Logged σ) :
    Source.drop n s = ⟨Source.drop n s.source, s.pulled ++ Source.taken n s.source⟩ := by
  induction n generalizing s with
  | zero => exact congrArg (Logged.mk s.source) (List.append_nil _).symm
  | succ n ih =>
    rw [drop_succ, ih, drop_succ, taken_succ, List.append_cons]
    rfl

end Logged

/-- A source gives so many tokens, and then the end of input for ever. -/
def Lasts [Source σ] (s : σ) (n : Nat) : Prop :=
  ∀ k, (get s k).kind = .eof ↔ n ≤ k

theorem Lasts.drop [Source σ] {s : σ} {n : Nat} (h : Lasts s n) (m : Nat) :
    Lasts (drop m s) (n - m) := by
  intro k
  rw [get, drop_drop]
  exact (h (m + k)).trans Nat.sub_le_iff_le_add'.symm

/-- The log changes nothing. -/
theorem Lasts.start [Source σ] {s : σ} {n : Nat} (h : Lasts s n) : Lasts (Logged.start s) n := by
  intro k
  rw [get, Logged.drop_eq]
  exact h k

theorem Gives.lasts [Source σ] {s : σ} {ts : List Token} (h : Gives s ts)
    (hts : ∀ t ∈ ts, t.kind ≠ .eof) : Lasts s ts.length := by
  intro k
  rw [h]
  cases hk : ts[k]? with
  | none => exact iff_of_true rfl (List.getElem?_eq_none_iff.1 hk)
  | some t =>
    obtain ⟨hlt, -⟩ := List.getElem?_eq_some_iff.1 hk
    exact iff_of_false (hts t (List.mem_of_getElem? hk)) (Nat.not_le.2 hlt)

end Source

namespace Parser

variable {σ : Type} [Source σ]

/-! ## What is still to come -/

/-- So many tokens come next, and then the end of input for ever. -/
def Lasts (p : Parser σ) (n : Nat) : Prop :=
  ∀ k, (p.move k).current.kind = .eof ↔ n ≤ k

theorem Lasts.move {p : Parser σ} {n : Nat} (h : p.Lasts n) (m : Nat) :
    (p.move m).Lasts (n - m) := by
  intro k
  rw [move_move]
  exact (h (m + k)).trans Nat.sub_le_iff_le_add'.symm

theorem Lasts.current_iff {p : Parser σ} {n : Nat} (h : p.Lasts n) :
    p.current.kind = .eof ↔ n = 0 :=
  (h 0).trans Nat.le_zero

theorem Reaches.lasts_sub {p q : Parser σ} {m n : Nat} (h : Reaches p m q) (hp : p.Lasts n) :
    q.Lasts (n - m) := by
  intro k
  rw [h.current_move]
  exact (hp (m + k)).trans Nat.sub_le_iff_le_add'.symm

theorem lasts_ofSource {s : σ} {n : Nat} (h : Source.Lasts s n) (config : Config) :
    (ofSource s config).Lasts n := by
  intro k
  rw [current_ofSource]
  exact h k

/-! ## Advances before the end of input -/

/-- The second state is the first, advanced so many times, with something in the window
each time, and with problems reported in between. -/
inductive Strides (p : Parser σ) : Nat → Parser σ → Prop where
  | refl : Strides p 0 p
  | advance {n : Nat} {q : Parser σ} (h : Strides p n q)
      (hne : q.current.kind ≠ .eof ∨ q.peek.kind ≠ .eof) : Strides p (n + 1) q.advance
  | report {n : Nat} {q : Parser σ} (e : Problem) (h : Strides p n q) : Strides p n (q.report e)

theorem Strides.reaches {p q : Parser σ} {n : Nat} (h : Strides p n q) : Reaches p n q := by
  induction h with
  | refl => exact .refl
  | advance _ _ ih => exact ih.advance
  | report e _ ih => exact ih.report e

/-- No more advances than there are tokens. -/
theorem Strides.le_of_lasts {p q : Parser σ} {m n : Nat} (h : Strides p m q) (hp : p.Lasts n) :
    m ≤ n := by
  induction h with
  | refl => exact Nat.zero_le _
  | @advance m q h hne _ =>
    have hq := h.reaches.lasts_sub hp
    rcases hne with hcurrent | hpeek
    · have hleft := mt (hq 0).2 hcurrent
      omega
    · have hleft := mt (hq 1).2 hpeek
      omega
  | report _ _ ih => exact ih

/-- What is done with a reason is done before the end of input. -/
theorem Warranted.exists_strides {p q : Parser σ} (h : Warranted p q)
    (hg : p.grammar = .standard) : ∃ n, Strides p n q := by
  induction h with
  | refl => exact ⟨0, .refl⟩
  | advance h hq ih =>
    obtain ⟨n, hn⟩ := ih
    have hgrammar := hn.reaches.grammar_eq.trans hg
    exact ⟨n + 1, hn.advance (hq (hgrammar ▸ Grammar.endsAtEof_standard))⟩
  | report _ _ ih =>
    obtain ⟨n, hn⟩ := ih
    exact ⟨n, hn.report _⟩

variable {p q : Parser σ}

/-! ## Whole runs -/

/-- Statements are parsed up to the end of input. -/
inductive Runs : Parser σ → List Stmt → Parser σ → Prop where
  | done {p : Parser σ} (hend : p.current.kind = .eof) : Runs p [] p
  | step {p q r : Parser σ} {s : Option Stmt} {ss : List Stmt} (hne : p.current.kind ≠ .eof)
      (hd : Dispatch p s q) (hrest : Runs q.advance ss r) : Runs p (s.toList ++ ss) r

/-- A run makes as many advances as there are tokens, or one more. -/
theorem Runs.exists_reaches {ss : List Stmt} {r : Parser σ} (h : Runs p ss r) :
    ∀ n, p.Lasts n → p.grammar = .standard →
      ∃ m, Reaches p m r ∧ (m = n ∨ m = n + 1 ∧ n ≠ 0) := by
  induction h with
  | done hend =>
    intro n hp _
    exact ⟨0, .refl, .inl (hp.current_iff.1 hend).symm⟩
  | @step p q r s ss hne hd _ ih =>
    intro n hp hg
    obtain ⟨m, hm⟩ := hd.warranted.exists_strides hg
    have hreaches := hm.reaches.advance
    obtain ⟨k, hk, hcount⟩ :=
      ih (n - (m + 1)) (hreaches.lasts_sub hp) (hreaches.grammar_eq.trans hg)
    have hle := hm.le_of_lasts hp
    have hn : n ≠ 0 := fun hn => hne (hp.current_iff.2 hn)
    refine ⟨m + 1 + k, hreaches.trans hk, ?_⟩
    omega

/-- Passing over tokens ends where the tokens do. -/
theorem Lasts.exists_skips {n : Nat} (h : p.Lasts n) : ∃ q, Skips p q := by
  induction n generalizing p with
  | zero =>
    refine ⟨p, .here ?_⟩
    simp [atTerminator, Token.is, h.current_iff.2 rfl]
  | succ n ih =>
    cases hend : p.atTerminator with
    | true => exact ⟨p, .here hend⟩
    | false =>
      obtain ⟨q, hq⟩ := ih (h.move 1)
      exact ⟨q, .next hend hq⟩

/-- Over finitely many tokens there is a run. -/
theorem Lasts.exists_runs {n : Nat} (h : p.Lasts n) (hg : p.grammar = .standard) :
    ∃ ss r, Runs p ss r := by
  induction n using Nat.strongRecOn generalizing p with
  | ind n ih =>
    by_cases hend : p.current.kind = .eof
    · exact ⟨[], p, .done hend⟩
    · obtain ⟨s, q, hd⟩ := exists_dispatch_of_skips p fun k => (h.move k).exists_skips
      obtain ⟨m, hm⟩ := hd.warranted.exists_strides hg
      have hreaches := hm.reaches.advance
      have hn : n ≠ 0 := fun hn => hend (h.current_iff.2 hn)
      obtain ⟨ss, r, hr⟩ := ih (n - (m + 1)) (by omega) (hreaches.lasts_sub h)
        (hreaches.grammar_eq.trans hg)
      exact ⟨_, r, .step hend hd hr⟩

/-- The source has been pulled from as often as the parser has moved on. -/
theorem Reaches.source_eq {n : Nat} (h : Reaches p n q) : q.source = Source.drop n p.source := by
  induction h with
  | refl => rfl
  | @advance n q _ ih =>
    show (Source.next q.source).2 = _
    rw [ih, Source.next_drop]
  | report _ _ ih => exact ih

/-- A run over a source is a run over its image, if no text is changed. -/
theorem Runs.map {τ : Type} [Source τ] {φ : σ → τ} (hφ : Source.Morphism (fun _ s => s) φ)
    {ss : List Stmt} {r : Parser σ} (h : Runs p ss r) :
    Runs (p.map (fun _ s => s) φ) ss (r.map (fun _ s => s) φ) := by
  induction h with
  | done hend => exact .done hend
  | @step p q r s ss hne hd _ ih =>
    have hself : s.map (Stmt.retext fun _ s => s) = s := by
      cases s with
      | none => rfl
      | some s => exact congrArg some s.retext_self
    have hd := hd.map hφ p fun _ _ _ => rfl
    rw [hself] at hd
    rw [← advance_map hφ] at ih
    exact .step hne hd ih

/-- Over a finite source the run is the function. -/
theorem runs_iff {τ : Type} [FiniteSource τ] {p r : Parser τ} {ss : List Stmt} :
    Runs p ss r ↔ p.statements = (ss, r) := by
  constructor
  · intro h
    induction h with
    | done hend => exact statements_of_eof hend
    | step hne hd _ ih => rw [statements_of_ne_eof hne, hd.statement_eq, ih]
  · have hruns : Runs p p.statements.1 p.statements.2 := by
      fun_induction statements p with
      | case1 p hend => exact .done hend
      | case2 p hne s rest ih => exact .step hne (dispatch_statement p) ih
    intro h
    rwa [h] at hruns

end Parser

/-! ## Parsing a source -/

section Parses

variable {σ : Type} [Source σ]

/-- A parse of a source comes to this. -/
inductive Parses (source : σ) (config : Config) : Parsed σ → Prop where
  | intro {ss : List Stmt} {q : Parser σ} (h : (Parser.ofSource source config).Runs ss q) :
      Parses source config ⟨⟨ss⟩, q.diagnostics, q.source⟩

/-- One source is parsed again and again, each time as it was left. -/
inductive ParsesEach : σ → List Config → List (Parsed σ) → Prop where
  | nil {source : σ} : ParsesEach source [] []
  | cons {source : σ} {config : Config} {configs : List Config} {r : Parsed σ}
      {rs : List (Parsed σ)} (h : Parses source config r) (hrest : ParsesEach r.source configs rs) :
      ParsesEach source (config :: configs) (r :: rs)

/-- A source that gives finitely many tokens can be parsed. -/
theorem Source.Lasts.exists_parses {source : σ} {n : Nat} (h : Source.Lasts source n)
    (config : Config) : ∃ r, Parses source config r := by
  obtain ⟨ss, q, hruns⟩ := (Parser.lasts_ofSource h config).exists_runs rfl
  exact ⟨_, .intro hruns⟩

/-- All tokens are pulled, and as many ends of input as fill the window, or one more. -/
theorem Parses.exists_source_eq {source : σ} {config : Config} {r : Parsed σ} {n : Nat}
    (h : Parses source config r) (hlasts : Source.Lasts source n) :
    ∃ m, r.source = Source.drop m source ∧ (m = n + 2 ∨ m = n + 3) := by
  cases h with
  | intro h =>
    obtain ⟨m, hm, hcount⟩ := h.exists_reaches n (Parser.lasts_ofSource hlasts config) rfl
    have hsource : _ = Source.drop m (Source.drop 2 source) := hm.source_eq
    rw [Source.drop_drop] at hsource
    exact ⟨2 + m, hsource, by omega⟩

/-- Nothing is left then. -/
theorem Parses.lasts_zero {source : σ} {config : Config} {r : Parsed σ} {n : Nat}
    (h : Parses source config r) (hlasts : Source.Lasts source n) : Source.Lasts r.source 0 := by
  obtain ⟨m, hsource, hm⟩ := h.exists_source_eq hlasts
  have hdrop := hlasts.drop m
  rwa [show n - m = 0 by omega, ← hsource] at hdrop

/-- Nothing is parsed where nothing is left. -/
theorem Parses.of_lasts_zero {source : σ} {config : Config} {r : Parsed σ}
    (h : Parses source config r) (hlasts : Source.Lasts source 0) :
    r.program.statements = [] ∧ r.diagnostics.isEmpty = true := by
  cases h with
  | intro h =>
    cases h with
    | done => exact ⟨rfl, rfl⟩
    | step hne => exact absurd ((Parser.lasts_ofSource hlasts config).current_iff.2 rfl) hne

theorem Source.Lasts.exists_parsesEach {source : σ} {n : Nat} (h : Source.Lasts source n)
    (configs : List Config) : ∃ rs, ParsesEach source configs rs := by
  induction configs generalizing source n with
  | nil => exact ⟨[], .nil⟩
  | cons config configs ih =>
    obtain ⟨r, hr⟩ := h.exists_parses config
    obtain ⟨rs, hrs⟩ := ih (hr.lasts_zero h)
    exact ⟨r :: rs, .cons hr hrs⟩

theorem ParsesEach.of_lasts_zero {source : σ} {configs : List Config} {rs : List (Parsed σ)}
    (h : ParsesEach source configs rs) (hlasts : Source.Lasts source 0) :
    ∀ r ∈ rs, r.program.statements = [] ∧ r.diagnostics.isEmpty = true := by
  induction h with
  | nil => exact fun r hr => absurd hr List.not_mem_nil
  | cons h _ ih =>
    exact List.forall_mem_cons.2 ⟨h.of_lasts_zero hlasts, ih (h.lasts_zero hlasts)⟩

/-- Without the log the parse is the same. -/
theorem Parses.of_logged {source : σ} {config : Config} {r : Parsed (Source.Logged σ)}
    (h : Parses (Source.Logged.start source) config r) :
    Parses source config ⟨r.program, r.diagnostics, r.source.source⟩ := by
  cases h with
  | intro h =>
    have hruns := h.map Source.Logged.morphism
    rw [← Parser.ofSource_map Source.Logged.morphism] at hruns
    exact .intro hruns

end Parses

/-- Over a finite source a parse comes to what the function gives. -/
theorem parses_iff {σ : Type} [FiniteSource σ] {source : σ} {config : Config} {r : Parsed σ} :
    Parses source config r ↔ r = parse source config := by
  constructor
  · rintro ⟨h⟩
    rw [parse, Parser.program, Parser.runs_iff.1 h]
  · rintro rfl
    exact .intro (Parser.runs_iff.2 rfl)

/-- **What a parse pulls.**  A parse of any source that gives some tokens and then the end of
input for ever comes to an end, under every configuration.  It has then pulled each of the
tokens, and the end of input twice or three times.  So the source can be parsed again as
often as one likes, under whatever configurations, and each time there is an empty program
and nothing to complain of.

Where the source is finite, the parse that is meant is the function. -/
theorem parse_pulls_exactly :
    (∀ {σ : Type} [Source σ] (source : σ) (n : Nat) (config : Config), Source.Lasts source n →
      (∃ r, Parses (Source.Logged.start source) config r) ∧
      ∀ r, Parses (Source.Logged.start source) config r →
        (r.source.pulled = Source.taken (n + 2) source ∨
          r.source.pulled = Source.taken (n + 3) source) ∧
        Parses source config ⟨r.program, r.diagnostics, r.source.source⟩ ∧
        ∀ configs, (∃ rs, ParsesEach r.source.source configs rs) ∧
          ∀ rs, ParsesEach r.source.source configs rs →
            ∀ again ∈ rs, again.program.statements = [] ∧ again.diagnostics.isEmpty = true) ∧
    ∀ {σ : Type} [FiniteSource σ] (source : σ) (config : Config) (r : Parsed σ),
      Parses source config r ↔ r = parse source config := by
  refine ⟨fun {σ} _ source n config hlasts => ?_, fun _ _ _ => parses_iff⟩
  refine ⟨hlasts.start.exists_parses config, fun r hr => ?_⟩
  obtain ⟨m, hsource, hm⟩ := hr.exists_source_eq hlasts.start
  have hpulled : r.source.pulled = Source.taken m source := by
    rw [hsource, Source.Logged.drop_eq]
    rfl
  have hleft : Source.Lasts r.source.source 0 := hr.of_logged.lasts_zero hlasts
  refine ⟨?_, hr.of_logged, fun configs => ?_⟩
  · rcases hm with rfl | rfl
    · exact .inl hpulled
    · exact .inr hpulled
  · exact ⟨hleft.exists_parsesEach configs, fun rs hrs => hrs.of_lasts_zero hleft⟩

/-- Behind the one token of `x` the end of input is pulled twice.  Behind the four of
`let x = 5` it is pulled three times where the value is passed over, for the parser runs on
to the end and moves on once more.  Parsed again with values read, there is nothing left. -/
theorem parse_pulls_exactly_let :
    let name : List Token := [⟨.identifier, "x"⟩]
    let bind : List Token :=
      [⟨.kwLet, "let"⟩, ⟨.identifier, "x"⟩, ⟨.assign, "="⟩, ⟨.integer, "5"⟩]
    let short := parse (Source.Logged.start (Tape.mk name)) .standard
    let long := parse (Source.Logged.start (Tape.mk bind)) .standard
    let again := parse long.source.source ⟨true, 256⟩
    Source.Lasts (Tape.mk name) 1 ∧ Source.Lasts (Tape.mk bind) 4 ∧
      Parses (Source.Logged.start (Tape.mk name)) .standard short ∧
      Parses (Source.Logged.start (Tape.mk bind)) .standard long ∧
      short.source.pulled = name ++ [.eof, .eof] ∧
      long.source.pulled = bind ++ [.eof, .eof, .eof] ∧
      ParsesEach long.source.source [⟨true, 256⟩] [again] ∧
      again.program.statements = [] ∧ again.diagnostics.isEmpty = true := by
  intro name bind short long again
  have hname : Source.Lasts (Tape.mk name) 1 := (Tape.gives name).lasts (by decide)
  have hbind : Source.Lasts (Tape.mk bind) 4 := (Tape.gives bind).lasts (by decide)
  have hshort : Parses (Source.Logged.start (Tape.mk name)) .standard short := parses_iff.2 rfl
  have hlong : Parses (Source.Logged.start (Tape.mk bind)) .standard long := parses_iff.2 rfl
  obtain ⟨hpulled, -⟩ := (parse_pulls_exactly.1 (Tape.mk name) 1 .standard hname).2 short hshort
  obtain ⟨hpulled', -, hagain⟩ :=
    (parse_pulls_exactly.1 (Tape.mk bind) 4 .standard hbind).2 long hlong
  have heach : ParsesEach long.source.source [⟨true, 256⟩] [again] :=
    .cons (parses_iff.2 rfl) .nil
  refine ⟨hname, hbind, hshort, hlong, ?_, ?_, heach, (hagain _).2 _ heach _ List.mem_cons_self⟩
  · exact hpulled.resolve_right (by decide +kernel)
  · exact hpulled'.resolve_left (by decide +kernel)

end Frontend
