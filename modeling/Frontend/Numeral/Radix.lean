/-
# `Frontend.Numeral.Radix` — digits in the four bases

An integer is written in base two, eight, ten or sixteen.  Any base but ten is
announced by a letter after a leading zero, in either case.  Digits are those of
ASCII; the letters of base sixteen may be of either case too.
-/

namespace Frontend

/-- The bases an integer may be written in. -/
inductive Radix where
  | binary
  | octal
  | decimal
  | hexadecimal
deriving DecidableEq

namespace Radix

/-- How many digits a base has. -/
def base : Radix → Nat
  | binary => 2
  | octal => 8
  | decimal => 10
  | hexadecimal => 16

/-- The base that a letter after a leading zero announces. -/
def ofMark? : Char → Option Radix
  | 'x' | 'X' => some hexadecimal
  | 'o' | 'O' => some octal
  | 'b' | 'B' => some binary
  | _ => none

/-- What a character counts as a digit, in the largest base. -/
def digitValue? (c : Char) : Option Nat :=
  if '0' ≤ c ∧ c ≤ '9' then some (c.toNat - '0'.toNat)
  else if 'a' ≤ c ∧ c ≤ 'f' then some (c.toNat - 'a'.toNat + 10)
  else if 'A' ≤ c ∧ c ≤ 'F' then some (c.toNat - 'A'.toNat + 10)
  else none

/-- What a character counts as a digit of a base. -/
def digit? (r : Radix) (c : Char) : Option Nat :=
  (digitValue? c).filter fun d => d < r.base

/-- Whether a character is a digit of a base. -/
def isDigit (r : Radix) (c : Char) : Bool :=
  (r.digit? c).isSome

/-- The number that a run of digits stands for, most significant digit first. -/
def value (r : Radix) (digits : List Char) : Nat :=
  digits.foldl (fun n c => n * r.base + (r.digit? c).getD 0) 0

@[simp] theorem value_nil (r : Radix) : r.value [] = 0 := rfl

theorem digit?_lt {r : Radix} {c : Char} {d : Nat} (h : r.digit? c = some d) :
    d < r.base := by
  simp only [digit?, Option.filter_eq_some_iff, decide_eq_true_eq] at h
  exact h.2

end Radix

end Frontend
