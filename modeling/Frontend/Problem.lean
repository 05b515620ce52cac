/-
# `Frontend.Problem` — what parsing may complain of

There are four causes.  A report never stops the parser, so problems gather in a
list, in the order in which they were met, and the list is part of the answer.
-/
import Frontend.Kind
import Frontend.Text.Quoted

namespace Frontend

/-- A cause of complaint. -/
inductive Problem where
  /-- An expression was to begin at a token that begins none. -/
  | noOpening (kind : Kind)
  /-- One kind of token was due and another came. -/
  | unexpected (expected received : Kind)
  /-- The text of an integer token is no integer, or one out of range. -/
  | notAnInteger (text : String)
  /-- An expression went deeper than the limit allows. -/
  | tooDeep (limit : Nat)
deriving DecidableEq

namespace Problem

/-- The name of a cause. -/
def name : Problem → String
  | noOpening _ => "NoPrefixParseFunction"
  | unexpected _ _ => "UnexpectedToken"
  | notAnInteger _ => "IntegerParseError"
  | tooDeep _ => "NestingTooDeep"

/-- The wording of a complaint. -/
def message : Problem → String
  | noOpening k => "no prefix parse function for " ++ k.name ++ " found"
  | unexpected e r =>
    "expected next token to be " ++ e.name ++ ", got " ++ r.name ++ " instead"
  | notAnInteger t => "could not parse " ++ Text.quote t ++ " as integer"
  | tooDeep n => "expression nested deeper than " ++ n.repr ++ " levels"

section

variable (k e r : Kind) (t : String) (n : Nat)

@[simp] theorem message_noOpening :
    (noOpening k).message = "no prefix parse function for " ++ k.name ++ " found" := rfl

@[simp] theorem message_unexpected :
    (unexpected e r).message =
      "expected next token to be " ++ e.name ++ ", got " ++ r.name ++ " instead" := rfl

@[simp] theorem message_notAnInteger :
    (notAnInteger t).message = "could not parse " ++ Text.quote t ++ " as integer" := rfl

@[simp] theorem message_tooDeep :
    (tooDeep n).message = "expression nested deeper than " ++ n.repr ++ " levels" := rfl

end

end Problem

/-- The problems met so far, first to last. -/
structure Diagnostics where
  problems : Array Problem
deriving DecidableEq

namespace Diagnostics

/-- Nothing to complain of. -/
def empty : Diagnostics :=
  ⟨#[]⟩

/-- Adds a problem behind the others. -/
def report (d : Diagnostics) (p : Problem) : Diagnostics :=
  ⟨d.problems.push p⟩

/-- The problems in order. -/
def toList (d : Diagnostics) : List Problem :=
  d.problems.toList

/-- The wordings in order. -/
def messages (d : Diagnostics) : List String :=
  d.toList.map Problem.message

/-- How many problems there are. -/
def size (d : Diagnostics) : Nat :=
  d.problems.size

/-- Whether there are none. -/
def isEmpty (d : Diagnostics) : Bool :=
  d.problems.isEmpty

@[simp] theorem toList_empty : empty.toList = [] := rfl

@[simp] theorem toList_report (d : Diagnostics) (p : Problem) :
    (d.report p).toList = d.toList ++ [p] := by
  simp [report, toList]

@[simp] theorem size_report (d : Diagnostics) (p : Problem) : (d.report p).size = d.size + 1 :=
  Array.size_push p

@[simp] theorem length_toList (d : Diagnostics) : d.toList.length = d.size := by
  simp [toList, size]

theorem isEmpty_iff {d : Diagnostics} : d.isEmpty = true ↔ d.size = 0 := by
  rw [isEmpty, size, Array.isEmpty_iff_size_eq_zero]

end Diagnostics

end Frontend
