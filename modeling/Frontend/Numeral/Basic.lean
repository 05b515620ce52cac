/-
# `Frontend.Numeral.Basic` — reading an integer

An integer's text is an optional sign, an optional base mark and one or more
digits of the base.  The text is first taken apart, which always succeeds; what
was taken apart is then an integer or not.  Nothing else is allowed anywhere (no
blanks, no separators, no second sign), and the value must fit a signed word of
sixty-four bits.  Without a mark the digits are decimal, leading zeros included.
-/
import Frontend.Numeral.Radix

namespace Frontend

/-- A text taken apart as an integer: sign, base and what should be digits. -/
structure Numeral where
  negative : Bool
  radix : Radix
  digits : List Char
deriving DecidableEq

namespace Numeral

/-- Splits off one leading sign. -/
def splitSign : List Char → Bool × List Char
  | '-' :: cs => (true, cs)
  | '+' :: cs => (false, cs)
  | cs => (false, cs)

/-- Splits off a leading base mark; without one the base is ten. -/
def splitRadix : List Char → Radix × List Char
  | '0' :: m :: cs =>
    match Radix.ofMark? m with
    | some r => (r, cs)
    | none => (.decimal, '0' :: m :: cs)
  | cs => (.decimal, cs)

/-- Takes a text apart: sign first, then base mark. -/
def ofChars (cs : List Char) : Numeral :=
  let signed := splitSign cs
  let marked := splitRadix signed.2
  ⟨signed.1, marked.1, marked.2⟩

/-- Whether there are digits and nothing but digits of the base. -/
def isWritten (n : Numeral) : Bool :=
  !n.digits.isEmpty && n.digits.all n.radix.isDigit

/-- The signed value of the digits. -/
def value (n : Numeral) : Int :=
  if n.negative then -(n.radix.value n.digits : Int) else (n.radix.value n.digits : Int)

/-- The least integer there is. -/
def least : Int := -9223372036854775808

/-- The first integer too large. -/
def bound : Int := 9223372036854775808

/-- The value of a text, if it is the text of an integer in range. -/
def read? (s : String) : Option Int :=
  let n := ofChars s.toList
  if n.isWritten = true ∧ least ≤ n.value ∧ n.value < bound then some n.value else none

theorem read?_eq_some_iff {s : String} {v : Int} :
    read? s = some v ↔
      (ofChars s.toList).isWritten = true ∧ (ofChars s.toList).value = v ∧
        least ≤ v ∧ v < bound := by
  simp only [read?, Option.ite_none_right_eq_some, Option.some.injEq]
  constructor
  · rintro ⟨⟨hw, hl, hb⟩, rfl⟩
    exact ⟨hw, rfl, hl, hb⟩
  · rintro ⟨hw, rfl, hl, hb⟩
    exact ⟨⟨hw, hl, hb⟩, rfl⟩

end Numeral

end Frontend
