/-
# `Frontend.Main` — the command itself

Reads what the arguments ask for, prints the answer and leaves with its code.
-/
import Frontend.Command

namespace Frontend.Command

/-- The bytes of the text to parse. -/
def readInput : Option String → IO ByteArray
  | some name => IO.FS.readBinFile name
  | none => do (← IO.getStdin).readBinToEnd

/-- The answer to the arguments, after reading the text they name. -/
def answerTo (args : List String) : IO Answer := do
  match read args with
  | .error m => return m.answer
  | .ok .help => return helpAnswer
  | .ok (.parse o) =>
    try
      match String.fromUTF8? (← readInput o.file) with
      | some text => return o.answer text
      | none => return unreadable
    catch _ => return unreadable

end Frontend.Command

def main (args : List String) : IO UInt32 := do
  let answer ← Frontend.Command.answerTo args
  IO.print answer.stdout
  IO.eprint answer.stderr
  return answer.exitCode.toUInt32
