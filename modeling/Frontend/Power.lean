/-
# `Frontend.Power` — how tightly an operator binds

Seven powers in a line.  An expression parsed at a power takes in the operators
that bind tighter than it, so only the order between powers ever matters; it is
the order of `rank`.
-/

namespace Frontend

/-- Binding powers, weakest first. -/
inductive Power where
  | lowest
  | equality
  | comparison
  | sum
  | product
  | unary
  | call
deriving DecidableEq

namespace Power

/-- Every power, weakest first. -/
def all : List Power :=
  [lowest, equality, comparison, sum, product, unary, call]

/-- The place of a power among all of them. -/
def rank : Power → Nat
  | lowest => 0
  | equality => 1
  | comparison => 2
  | sum => 3
  | product => 4
  | unary => 5
  | call => 6

/-- The name a power is printed under. -/
def name : Power → String
  | lowest => "Lowest"
  | equality => "Equals"
  | comparison => "Comparison"
  | sum => "Sum"
  | product => "Product"
  | unary => "Prefix"
  | call => "Call"

/-- The power printed under a name. -/
def ofName? (s : String) : Option Power :=
  all.find? fun b => b.name == s

instance : LT Power := ⟨fun a b => a.rank < b.rank⟩

instance : LE Power := ⟨fun a b => a.rank ≤ b.rank⟩

instance (a b : Power) : Decidable (a < b) :=
  inferInstanceAs (Decidable (a.rank < b.rank))

instance (a b : Power) : Decidable (a ≤ b) :=
  inferInstanceAs (Decidable (a.rank ≤ b.rank))

instance : Ord Power := ⟨fun a b => compare a.rank b.rank⟩

theorem lt_def {a b : Power} : a < b ↔ a.rank < b.rank := Iff.rfl

theorem le_def {a b : Power} : a ≤ b ↔ a.rank ≤ b.rank := Iff.rfl

theorem not_lt {a b : Power} : ¬ a < b ↔ b ≤ a := Nat.not_lt

theorem rank_inj {a b : Power} (h : a.rank = b.rank) : a = b := by
  revert h
  cases a <;> cases b <;> simp [rank]

theorem lowest_le (a : Power) : lowest ≤ a := Nat.zero_le _

end Power

end Frontend
