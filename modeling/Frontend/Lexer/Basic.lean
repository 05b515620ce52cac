/-
# `Frontend.Lexer.Basic` — a source over text

A lexer cuts tokens off its text only when one is asked for.  Tokens may be
pushed to it; they wait in a queue, first in, first out, and go before whatever
the text still holds.

Its position can be moved forward by bytes, and such a move may end inside a
character or beyond the text.  There no text can be read.  Beyond the text the
lexer is simply at its end; inside a character it is not, so with an empty queue
it has no answer (`next?`), and as a source it then gives the end of input.
-/
import Frontend.Lexer.Piece
import Frontend.Source

namespace Frontend

/-- Moves forward over whole characters while the bytes last.  The bytes left
over do not make up another character. -/
def dropBytes : Nat → List Char → Nat × List Char
  | n, [] => (n, [])
  | n, c :: cs => if c.utf8Size ≤ n then dropBytes (n - c.utf8Size) cs else (n, c :: cs)

theorem dropBytes_lt (n : Nat) (cs : List Char) :
    ∀ c ∈ (dropBytes n cs).2.head?, (dropBytes n cs).1 < c.utf8Size := by
  fun_induction dropBytes n cs with
  | case1 => simp
  | case2 n c cs h ih => exact ih
  | case3 n c cs h => simpa using h

/-- A source over text. -/
structure Lexer where
  /-- The tokens to give before any from the text. -/
  queue : List Token
  /-- The text from the position on, or from the character that it lies in. -/
  rest : List Char
  /-- How many bytes the position lies behind the start of `rest`. -/
  ahead : Nat
  ahead_lt : ∀ c ∈ rest.head?, ahead < c.utf8Size

namespace Lexer

/-- A lexer at the start of a list of characters, with nothing queued. -/
def ofChars (cs : List Char) : Lexer :=
  ⟨[], cs, 0, fun c _ => c.utf8Size_pos⟩

/-- A lexer at the start of a text. -/
def ofString (s : String) : Lexer :=
  ofChars s.toList

/-- Moves the position forward by bytes, however many there are. -/
def advance (l : Lexer) (n : Nat) : Lexer :=
  let moved := dropBytes (l.ahead + n) l.rest
  ⟨l.queue, moved.2, moved.1, dropBytes_lt _ _⟩

/-- Queues a token behind those already there. -/
def push (l : Lexer) (t : Token) : Lexer :=
  { l with queue := l.queue ++ [t] }

/-- Whether the position has reached the end of the text or gone beyond. -/
def atEnd (l : Lexer) : Bool :=
  l.rest.isEmpty

/-- The text from the position on.  There is none beyond the end and none inside
a character. -/
def remainder? (l : Lexer) : Option String :=
  if l.ahead = 0 then some (String.ofList l.rest) else none

/-- The next token: the front of the queue, else the first token of the text,
else the end of input.  None inside a character. -/
def next? (l : Lexer) : Option (Token × Lexer) :=
  match l.queue with
  | t :: ts => some (t, { l with queue := ts })
  | [] =>
    if l.rest.isEmpty then some (.eof, l)
    else if l.ahead = 0 then
      match nextToken? l.rest with
      | some (t, rest) => some (t, ofChars rest)
      | none => some (.eof, ofChars [])
    else none

/-- The next token, or the end of input where there is none to be had. -/
def next (l : Lexer) : Token × Lexer :=
  l.next?.getD (.eof, l)

/-- How many tokens there may still be. -/
def left (l : Lexer) : Nat :=
  l.queue.length + if l.ahead = 0 then l.rest.length else 0

theorem left_next_lt (l : Lexer) (h : l.left ≠ 0) : l.next.2.left < l.left := by
  obtain ⟨queue, rest, ahead, hl⟩ := l
  cases queue with
  | cons t ts => exact Nat.add_lt_add_right (Nat.lt_succ_self ts.length) _
  | nil =>
    by_cases ha : ahead = 0
    · subst ha
      cases rest with
      | nil => simp [left] at h
      | cons c cs =>
        cases hn : nextToken? (c :: cs) with
        | none => simp [next, next?, left, hn, ofChars]
        | some r =>
          have hlt := length_lt_of_nextToken? hn
          simpa [next, next?, left, hn, ofChars] using hlt
    · simp [left, ha] at h

theorem next_of_left_eq_zero (l : Lexer) (h : l.left = 0) :
    l.next.1 = .eof ∧ l.next.2.left = 0 := by
  obtain ⟨queue, rest, ahead, hl⟩ := l
  simp only [left, Nat.add_eq_zero_iff, List.length_eq_zero_iff] at h
  obtain ⟨rfl, h⟩ := h
  by_cases ha : ahead = 0
  · subst ha
    simp only [if_true, List.length_eq_zero_iff] at h
    subst h
    simp [next, next?, left]
  · cases rest <;> simp [next, next?, left, ha]

instance : FiniteSource Lexer where
  next := next
  left := left
  left_next_lt := left_next_lt
  next_of_left_eq_zero l h := congrArg Token.kind (next_of_left_eq_zero l h).1
  left_next_of_left_eq_zero l h := (next_of_left_eq_zero l h).2

end Lexer

end Frontend
