/-
# `Frontend.Parser.Config` — what the caller decides

Whether the values of `let` and `return` are read, and how deep an expression
may go.
-/

namespace Frontend

/-- The settings of a parse. -/
structure Config where
  /-- Read the right-hand sides of `let` and `return`; otherwise pass over them. -/
  readValues : Bool := false
  /-- The levels that an expression may open within each other. -/
  maxDepth : Nat := 256
deriving DecidableEq

/-- The settings of a parse for which none are given. -/
def Config.standard : Config where

end Frontend
