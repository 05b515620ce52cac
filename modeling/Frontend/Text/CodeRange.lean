/-
# `Frontend.Text.CodeRange` — sets of characters given by ranges of codes

A character property of the Unicode standard is a table of closed ranges.  This
module holds the look-up; the tables are in modules named for their property.
-/

namespace Frontend.Text

/-- The codes from the first to the last, both included. -/
abbrev CodeRange : Type := Nat × Nat

/-- Whether the code of a character lies in one of the ranges. -/
def inRanges (ranges : List CodeRange) (c : Char) : Bool :=
  ranges.any fun r => r.1 ≤ c.toNat && c.toNat ≤ r.2

theorem inRanges_iff {ranges : List CodeRange} {c : Char} :
    inRanges ranges c = true ↔ ∃ r ∈ ranges, r.1 ≤ c.toNat ∧ c.toNat ≤ r.2 := by
  simp [inRanges]

end Frontend.Text
