/-
# `Frontend.Proofs.Phrase` — expressions as they stand in the tokens

An expression keeps no trace of the groups it was written with.  A phrase does:
it is an expression together with its parentheses, so it can be spelled out
again (`yield`), and forgetting the groups gives the expression (`erase`).

Which phrases an expression parser may read from which tokens is decided by the
powers of the operators alone.  `WellBound` says it: on the left of an operator
stands nothing that binds weaker, on its right and behind an operator before its
operand stands nothing that does not bind tighter.  Only an operator that no
group encloses counts, so the test is on the root of each operand.

The nesting limit counts in phrases too, since a group opens a level although it
leaves no node.  `levels` is the number that reading a phrase needs: an operand
opens its levels above those of what it is nested in, and an operator between
operands stays open until the whole run of operators on its left spine is done.
-/
import Frontend.Expr
import Frontend.Grammar
import Frontend.Numeral.Basic

namespace Frontend

/-! ## Where an expression stops -/

namespace Grammar

/-- An expression read at a power ends before a token: at a terminator, and at
whatever does not bind tighter than the power. -/
def Stops (g : Grammar) (b : Power) (t : Token) : Prop :=
  t.kind = .semicolon ∨ g.power t.kind ≤ b

instance (g : Grammar) (b : Power) (t : Token) : Decidable (g.Stops b t) :=
  inferInstanceAs (Decidable (_ ∨ _))

theorem Stops.mono {g : Grammar} {b b' : Power} {t : Token} (h : g.Stops b t) (hb : b ≤ b') :
    g.Stops b' t :=
  h.imp_right fun h => Nat.le_trans h hb

/-- A kind that binds tighter than the lowest power joins something. -/
def Joins (g : Grammar) : Prop :=
  ∀ k, g.joining k = none → g.power k = .lowest

/-- The standard table after some kinds were made operators between operands. -/
def withOperators (entries : List (Kind × Power)) : Grammar :=
  entries.foldl (fun g e => g.setJoining e.1 e.2 .binary) .standard

/-- Making a kind an operator keeps it so that every kind that binds joins. -/
theorem Joins.setJoining {g : Grammar} (h : g.Joins) (k : Kind) (b : Power) (j : Joining) :
    (g.setJoining k b j).Joins := by
  intro l hl
  by_cases hk : l = k
  · simp [Grammar.setJoining, hk] at hl
  · simp only [Grammar.setJoining, if_neg hk] at hl ⊢
    exact h l hl

theorem joins_standard : standard.Joins := by
  intro k hk
  cases k <;> first | rfl | simp [standard] at hk

theorem joins_withOperators (entries : List (Kind × Power)) : (withOperators entries).Joins := by
  suffices h : ∀ g : Grammar, g.Joins →
      (entries.foldl (fun g e => g.setJoining e.1 e.2 .binary) g).Joins from h _ joins_standard
  induction entries with
  | nil => exact fun _ hg => hg
  | cons e entries ih => exact fun g hg => ih _ (hg.setJoining e.1 e.2 .binary)

end Grammar

/-! ## Phrases -/

/-- An expression with its groups.  Every token that it is written with is in it. -/
inductive Phrase where
  | ident (token : Token)
  | integer (token : Token) (value : Int)
  | unary (operator : Token) (operand : Phrase)
  | binary (operator : Token) (left right : Phrase)
  | group (opening closing : Token) (inner : Phrase)
deriving DecidableEq

namespace Phrase

/-- The tokens of a phrase in order. -/
def yield : Phrase → List Token
  | ident t => [t]
  | integer t _ => [t]
  | unary t x => t :: x.yield
  | binary t l r => l.yield ++ t :: r.yield
  | group o c x => o :: (x.yield ++ [c])

/-- The expression that is left when the groups are forgotten. -/
def erase : Phrase → Expr
  | ident t => .ident (.ofToken t)
  | integer t v => .integer t v
  | unary t x => .unary t t.text x.erase
  | binary t l r => .binary t t.text l.erase r.erase
  | group _ _ x => x.erase

/-- How many tokens stand behind the first one. -/
def width : Phrase → Nat
  | ident _ => 0
  | integer _ _ => 0
  | unary _ x => x.width + 1
  | binary _ l r => l.width + r.width + 2
  | group _ _ x => x.width + 2

theorem length_yield (c : Phrase) : c.yield.length = c.width + 1 := by
  induction c with
  | ident t => rfl
  | integer t v => rfl
  | unary t x ih => simp [yield, width, ih]
  | binary t l r ihl ihr =>
    simp only [yield, width, List.length_append, List.length_cons, ihl, ihr]
    omega
  | group o c x ih => simp [yield, width, ih]

/-! ## Binding -/

variable (g : Grammar)

/-- An operator between operands at the root binds tighter than a power. -/
def TighterThan (b : Power) : Phrase → Prop
  | binary t _ _ => b < g.power t.kind
  | _ => True

/-- An operator between operands at the root does not bind weaker than a power. -/
def AtLeast (b : Power) : Phrase → Prop
  | binary t _ _ => b ≤ g.power t.kind
  | _ => True

/-- The tokens are in their places and the operators in their powers. -/
def WellBound : Phrase → Prop
  | ident t => g.opening t.kind = some .ident
  | integer t v => g.opening t.kind = some .integer ∧ Numeral.read? t.text = some v
  | unary t x => g.opening t.kind = some .unary ∧ x.WellBound ∧ x.TighterThan g .unary
  | binary t l r =>
    g.joining t.kind = some .binary ∧ l.WellBound ∧ r.WellBound ∧
      l.AtLeast g (g.power t.kind) ∧ r.TighterThan g (g.power t.kind)
  | group o c x => g.opening o.kind = some .group ∧ c.kind = .closeParen ∧ x.WellBound

/-- What follows the phrase does not go on with its root. -/
def ClosedBy (t : Token) : Phrase → Prop
  | binary u _ _ => g.Stops (g.power u.kind) t
  | _ => True

variable {g}

instance decTighterThan (b : Power) : (c : Phrase) → Decidable (c.TighterThan g b)
  | ident _ | integer _ _ | unary _ _ | group _ _ _ => .isTrue trivial
  | binary t _ _ => inferInstanceAs (Decidable (b < g.power t.kind))

instance decAtLeast (b : Power) : (c : Phrase) → Decidable (c.AtLeast g b)
  | ident _ | integer _ _ | unary _ _ | group _ _ _ => .isTrue trivial
  | binary t _ _ => inferInstanceAs (Decidable (b ≤ g.power t.kind))

instance decWellBound : (c : Phrase) → Decidable (c.WellBound g)
  | ident t => inferInstanceAs (Decidable (g.opening t.kind = some .ident))
  | integer _ _ => inferInstanceAs (Decidable (_ ∧ _))
  | unary _ x =>
    have := decWellBound x
    inferInstanceAs (Decidable (_ ∧ _ ∧ _))
  | binary _ l r =>
    have := decWellBound l
    have := decWellBound r
    inferInstanceAs (Decidable (_ ∧ _ ∧ _ ∧ _ ∧ _))
  | group _ _ x =>
    have := decWellBound x
    inferInstanceAs (Decidable (_ ∧ _ ∧ _))

/-! ## Nesting -/

/-- The operators between operands on the left spine, up to the first group or
other form. -/
def spine : Phrase → Nat
  | ident _ => 0
  | integer _ _ => 0
  | unary _ _ => 0
  | binary _ l _ => l.spine + 1
  | group _ _ _ => 0

/-- The levels that reading the phrase needs. -/
def levels : Phrase → Nat
  | ident _ => 1
  | integer _ _ => 1
  | unary _ x => 1 + x.levels
  | group _ _ x => 1 + x.levels
  | binary t l r => max l.levels (1 + (binary t l r).spine + r.levels)

theorem spine_lt_levels (c : Phrase) : c.spine < c.levels := by
  cases c with
  | binary t l r => simp only [levels]; omega
  | _ => simp only [spine, levels]; omega

/-- Without an operator on its spine a phrase is a unit, which nothing can break up. -/
theorem tighterThan_of_spine {g : Grammar} {b : Power} {c : Phrase} (h : c.spine = 0) :
    c.TighterThan g b := by
  cases c with
  | binary t l r => cases h
  | _ => trivial

theorem atLeast_of_spine {g : Grammar} {b : Power} {c : Phrase} (h : c.spine = 0) :
    c.AtLeast g b := by
  cases c with
  | binary t l r => cases h
  | _ => trivial

theorem closedBy_of_spine {g : Grammar} {t : Token} {c : Phrase} (h : c.spine = 0) :
    c.ClosedBy g t := by
  cases c with
  | binary u l r => cases h
  | _ => trivial

end Phrase

end Frontend
