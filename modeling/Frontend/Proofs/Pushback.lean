/-
# `Frontend.Proofs.Pushback` — a lexer is a queue before a list

A lexer cuts a token off its text when it is asked for one and its queue is
empty.  From outside nothing of this is seen.  Whatever is pushed and asked for,
in whatever order, the answers are those of a machine that has a queue and the
list of all the tokens of the text, and takes from the queue as long as there is
something in it.  Copies that are kept and returned to make no difference, since
a copy of the lexer stands for a copy of the machine.

The machine that a lexer stands for is `Lexer.fifo`.  It says nothing where the
position lies inside a character, so the invariant of a run is that it does not
(`Lexer.AtBoundary`); neither a push nor a request moves it there.  One exchange
is compared first (`Session.step_exchange`), and a run of them by induction.
-/
import Frontend.Lexer.Session
import Frontend.Proofs.Morphism
import Frontend.Proofs.Munch

namespace Frontend.Lexer

/-! ## The machine -/

/-- A queue of tokens that were pushed, and those still to come from a list. -/
structure Fifo where
  pushed : List Token
  coming : List Token
deriving DecidableEq

namespace Fifo

/-- The front of the queue, else of the list, else the end of input. -/
def next : Fifo → Token × Fifo
  | ⟨t :: ts, us⟩ => (t, ⟨ts, us⟩)
  | ⟨[], u :: us⟩ => (u, ⟨[], us⟩)
  | ⟨[], []⟩ => (.eof, ⟨[], []⟩)

/-- Queues a token behind those already there. -/
def push (m : Fifo) (t : Token) : Fifo :=
  { m with pushed := m.pushed ++ [t] }

end Fifo

/-- What is asked of a lexer that is not moved by hand. -/
inductive Exchange where
  | next
  | push (token : Token)
  /-- Keeps a copy. -/
  | save
  /-- Returns to a copy, counted from the first one kept. -/
  | load (copy : Nat)
deriving DecidableEq

/-- The exchange as an operation of a lexer. -/
def Exchange.op : Exchange → Op
  | next => .next
  | push t => .push t
  | save => .save
  | load i => .load i

/-- The machine with the copies kept of it. -/
structure FifoSession where
  machine : Fifo
  saved : List Fifo
deriving DecidableEq

namespace FifoSession

/-- One exchange. -/
def step (s : FifoSession) : Exchange → Reply × FifoSession
  | .next => (.token s.machine.next.1, { s with machine := s.machine.next.2 })
  | .push t => (.done, { s with machine := s.machine.push t })
  | .save => (.done, { s with saved := s.saved ++ [s.machine] })
  | .load i => (.done, { s with machine := s.saved[i]?.getD s.machine })

/-- A list of exchanges, with the answers in order. -/
def run (s : FifoSession) : List Exchange → List Reply × FifoSession
  | [] => ([], s)
  | x :: xs =>
    let first := s.step x
    let rest := first.2.run xs
    (first.1 :: rest.1, rest.2)

end FifoSession

/-! ## What a lexer stands for -/

/-- The queue of a lexer and the tokens of its text. -/
def fifo (l : Lexer) : Fifo :=
  ⟨l.queue, tokensOf l.rest⟩

/-- The position does not lie inside a character. -/
def AtBoundary (l : Lexer) : Prop :=
  l.ahead = 0

theorem AtBoundary.eq_ofChars {l : Lexer} (h : l.AtBoundary) (hq : l.queue = []) :
    l = ofChars l.rest := by
  obtain ⟨queue, rest, ahead, hlt⟩ := l
  obtain rfl : queue = [] := hq
  obtain rfl : ahead = 0 := h
  rfl

/-- A request is answered, as by the machine. -/
theorem next?_fifo {l : Lexer} (h : l.AtBoundary) :
    ∃ l', l.next? = some (l.fifo.next.1, l') ∧ l'.fifo = l.fifo.next.2 ∧ l'.AtBoundary := by
  cases hq : l.queue with
  | cons t ts =>
    refine ⟨{ l with queue := ts }, ?_, ?_, h⟩
    · rw [next?, fifo, hq]
      rfl
    · rw [fifo, fifo, hq]
      rfl
  | nil =>
    -- With nothing queued the lexer is a new one over the rest of its text.
    obtain ⟨rest, hnext, htail⟩ := next?_ofChars l.rest
    rw [← h.eq_ofChars hq] at hnext
    refine ⟨ofChars rest, ?_, ?_, rfl⟩
    · rw [hnext, fifo, hq]
      cases tokensOf l.rest <;> rfl
    · rw [fifo, fifo, hq]
      show Fifo.mk [] (tokensOf rest) = _
      rw [htail]
      cases tokensOf l.rest <;> rfl

namespace Session

/-- The machine and its copies, for a lexer and its copies. -/
def fifo (s : Session) : FifoSession :=
  ⟨s.lexer.fifo, s.saved.toList.map Lexer.fifo⟩

/-- Neither the lexer nor a copy stands inside a character. -/
structure AtBoundary (s : Session) : Prop where
  lexer : s.lexer.AtBoundary
  saved : ∀ l ∈ s.saved, l.AtBoundary

/-- A copy that is returned to is one that was kept, if there is one with the number. -/
theorem AtBoundary.getD {s : Session} (h : s.AtBoundary) (i : Nat) :
    (s.saved[i]?.getD s.lexer).AtBoundary := by
  cases hi : s.saved[i]? with
  | none => exact h.lexer
  | some l => exact h.saved l (Array.mem_of_getElem? hi)

theorem fifo_getD (s : Session) (i : Nat) :
    (s.saved[i]?.getD s.lexer).fifo = s.fifo.saved[i]?.getD s.fifo.machine := by
  rw [fifo, List.getElem?_map, Array.getElem?_toList]
  cases s.saved[i]? <;> rfl

/-- **The step.**  An exchange gets the answer of the machine, and goes on as it does. -/
theorem step_exchange {s : Session} (h : s.AtBoundary) (x : Exchange) :
    (s.step x.op).1 = (s.fifo.step x).1 ∧ (s.step x.op).2.fifo = (s.fifo.step x).2 ∧
      (s.step x.op).2.AtBoundary := by
  cases x with
  | next =>
    obtain ⟨l, hnext, hfifo, hl⟩ := next?_fifo h.lexer
    have hstep : s.step .next = (.token s.lexer.fifo.next.1, { s with lexer := l }) := by
      simp only [step, hnext]
    rw [Exchange.op, hstep]
    refine ⟨rfl, ?_, hl, h.saved⟩
    rw [fifo, hfifo]
    rfl
  | push t => exact ⟨rfl, rfl, h.lexer, h.saved⟩
  | save =>
    refine ⟨rfl, ?_, h.lexer, ?_⟩
    · show FifoSession.mk s.lexer.fifo ((s.saved.push s.lexer).toList.map Lexer.fifo) = _
      rw [Array.toList_push, List.map_append]
      rfl
    · intro l hl
      rcases Array.mem_push.1 hl with hl | rfl
      · exact h.saved l hl
      · exact h.lexer
  | load i =>
    refine ⟨rfl, ?_, h.getD i, h.saved⟩
    show FifoSession.mk (s.saved[i]?.getD s.lexer).fifo _ = _
    rw [fifo_getD]
    rfl

/-- **The run.**  Exchanges in any order get the answers of the machine. -/
theorem run_exchange {s : Session} (h : s.AtBoundary) (xs : List Exchange) :
    (s.run (xs.map Exchange.op)).1 = (s.fifo.run xs).1 := by
  induction xs generalizing s with
  | nil => rfl
  | cons x xs ih =>
    obtain ⟨hreply, hfifo, hnext⟩ := step_exchange h x
    rw [List.map_cons, run, FifoSession.run, hreply, ih hnext, hfifo]

end Session

/-- A position on a character is the length in bytes of what stands before it. -/
theorem advance_ofString (before behind : String) :
    (ofString (before ++ behind)).advance before.utf8ByteSize = ofString behind := by
  have h := advance_ofChars before.toList behind.toList
  rwa [String.ofList_toList, ← String.toList_append] at h

/-- A text read as it is asked for and read beforehand give the same. -/
theorem get_ofString (source : String) (n : Nat) :
    Source.get (ofString source) n = Source.get (Tape.mk (tokenize source)) n :=
  (gives_ofChars source.toList).concat_eof.get_eq (Tape.gives _) n

/-- **Reading on demand.**  A lexer that stands on a character of a text, with nothing
queued, answers every run of pushes and requests, copies kept and returned to among
them, as the machine does that has an empty queue and the tokens of the rest of the text.

So over a text and over its tokens a parser sees the same, and parses the same program
with the same complaints. -/
theorem run_eq_fifo :
    (∀ (before behind : String) (xs : List Exchange),
      let lexer := (ofString (before ++ behind)).advance before.utf8ByteSize
      ((Session.start lexer).run (xs.map Exchange.op)).1 =
        (FifoSession.run ⟨⟨[], (tokenize behind).dropLast⟩, []⟩ xs).1) ∧
    ∀ source : String,
      (∀ n, Source.get (ofString source) n = Source.get (Tape.mk (tokenize source)) n) ∧
        ∀ config : Config,
          (parse (ofString source) config).program =
              (parse (Tape.mk (tokenize source)) config).program ∧
            (parse (ofString source) config).diagnostics =
              (parse (Tape.mk (tokenize source)) config).diagnostics := by
  refine ⟨fun before behind xs => ?_, fun source => ⟨get_ofString source, fun config => ?_⟩⟩
  · intro lexer
    have hboundary : (Session.start (ofString behind)).AtBoundary :=
      ⟨rfl, fun l hl => absurd hl (Array.not_mem_empty l)⟩
    have hcoming : (tokenize behind).dropLast = tokensOf behind.toList :=
      List.dropLast_concat
    rw [hcoming]
    show ((Session.start lexer).run _).1 = _
    rw [show lexer = ofString behind from advance_ofString before behind]
    exact Session.run_exchange hboundary xs
  · exact parse_of_get_eq (get_ofString source) config

end Frontend.Lexer
