/-
# `Frontend.Command` — the command line, without its effects

The command parses one text, from a file or from standard input, prints the
program it found and reports the problems it met.  Here are the meaning of the
arguments and the answer to a text; reading and printing are left to the caller.

Arguments are read from left to right and the first fault decides.  An option is
given at most once.  Two dashes by themselves end the options; a single dash is
an ordinary argument.
-/
import Frontend.Parser.Statement

namespace Frontend.Command

/-- A fault in the arguments. -/
inductive Misuse where
  | unknownOption (argument : String)
  | repeated (option : String)
  | missingValue (option : String)
  | badValue (option value : String)
  | emptyFile
  | secondFile (argument : String)
deriving DecidableEq

/-- What the arguments ask for. -/
structure Options where
  /-- The file to parse; standard input if there is none. -/
  file : Option String := none
  readValues : Bool := false
  /-- The nesting limit, if one is given. -/
  maxDepth : Option Nat := none
  /-- Print the tokens first. -/
  showTokens : Bool := false
deriving DecidableEq

/-- The arguments, understood. -/
inductive Request where
  | help
  | parse (options : Options)
deriving DecidableEq

/-- The largest limit that can be given. -/
def largestLimit : Nat := 18446744073709551615

/-- Reads a limit: decimal digits, with a plus before them or not. -/
def readLimit? (s : String) : Option Nat :=
  let digits :=
    match s.toList with
    | '+' :: cs => cs
    | cs => cs
  let n := Radix.decimal.value digits
  if !digits.isEmpty && digits.all Radix.decimal.isDigit && n ≤ largestLimit then some n else none

namespace Options

/-- Takes the value of the limit. -/
def takeLimit (o : Options) (value : String) : Except Misuse Options :=
  match o.maxDepth with
  | some _ => .error (.repeated "--max-depth")
  | none =>
    match readLimit? value with
    | some n => .ok { o with maxDepth := some n }
    | none => .error (.badValue "--max-depth" value)

/-- Takes an argument that is no option. -/
def takeFile (o : Options) (name : String) : Except Misuse Options :=
  match o.file with
  | some _ => .error (.secondFile name)
  | none => if name = "" then .error .emptyFile else .ok { o with file := some name }

/-- Takes a switch that reads values. -/
def takeReadValues (o : Options) : Except Misuse Options :=
  if o.readValues = true then .error (.repeated "--parse-values")
  else .ok { o with readValues := true }

/-- Takes a switch that prints tokens. -/
def takeShowTokens (o : Options) : Except Misuse Options :=
  if o.showTokens = true then .error (.repeated "--tokens")
  else .ok { o with showTokens := true }

/-- The settings of the parse that is asked for. -/
def config (o : Options) : Config :=
  { readValues := o.readValues, maxDepth := o.maxDepth.getD Config.standard.maxDepth }

end Options

/-- The value of an option that is written in the same argument. -/
def valueIn? (option argument : String) : Option String :=
  let head := (option ++ "=").toList
  if head.isPrefixOf argument.toList then
    some (String.ofList (argument.toList.drop head.length))
  else none

/-- Whether an argument asks for help. -/
def isHelp (argument : String) : Bool :=
  argument == "--help" || ['-', 'h'].isPrefixOf argument.toList

/-- Whether an argument looks like an option. -/
def isOption (argument : String) : Bool :=
  ['-'].isPrefixOf argument.toList && argument != "-"

/-- Reads arguments, on top of what earlier ones asked for. -/
def readFrom : Options → List String → Except Misuse Request
  | o, [] => .ok (.parse o)
  | o, a :: args =>
    if a = "--" then do return .parse (← args.foldlM Options.takeFile o)
    else if isHelp a = true then .ok .help
    else if a = "--parse-values" then do readFrom (← o.takeReadValues) args
    else if a = "--tokens" then do readFrom (← o.takeShowTokens) args
    else if a = "--max-depth" then
      match args with
      | [] => .error (.missingValue a)
      | v :: args =>
        if isOption v = true then .error (.missingValue a) else do readFrom (← o.takeLimit v) args
    else
      match valueIn? "--max-depth" a with
      | some v => do readFrom (← o.takeLimit v) args
      | none =>
        if isOption a = true then .error (.unknownOption a) else do readFrom (← o.takeFile a) args

/-- Reads the arguments of the command. -/
def read (args : List String) : Except Misuse Request :=
  readFrom {} args

/-! ## Answers -/

/-- What the command leaves behind. -/
structure Answer where
  exitCode : Nat
  stdout : String
  stderr : String
deriving DecidableEq

/-- How the command is used. -/
def usage : String :=
  "usage: interpreter [--parse-values] [--max-depth N] [--tokens] [--] [FILE]\n"

namespace Misuse

/-- The wording of a fault. -/
def message : Misuse → String
  | unknownOption a => "unknown option " ++ Text.quote a
  | repeated o => "option " ++ o ++ " is given more than once"
  | missingValue o => "option " ++ o ++ " needs a value"
  | badValue o v => "option " ++ o ++ " does not take " ++ Text.quote v
  | emptyFile => "the file has no name"
  | secondFile a => "a second file " ++ Text.quote a

/-- The answer to a fault. -/
def answer (m : Misuse) : Answer :=
  ⟨2, "", "error: " ++ m.message ++ "\n" ++ usage⟩

end Misuse

/-- The answer to a request for help. -/
def helpAnswer : Answer :=
  ⟨0, usage, ""⟩

/-- The answer when there is no text, because it could not be read or is not text. -/
def unreadable : Answer :=
  ⟨1, "", "failed to read input\n"⟩

/-- Texts on lines of their own, each ended by a newline. -/
def endLines (texts : List String) : String :=
  texts.foldr (fun t rest => t ++ "\n" ++ rest) ""

/-- The answer to a text: the tokens if they are asked for, the program if there is
any, and the problems on the other channel. -/
def Options.answer (o : Options) (text : String) : Answer :=
  let parsed := parseText text o.config
  let tokens := if o.showTokens = true then (tokenize text).map Token.describe else []
  let program := if parsed.program.isEmpty = true then [] else [parsed.program.render]
  let messages := parsed.diagnostics.messages
  if messages.isEmpty = true then ⟨0, endLines (tokens ++ program), ""⟩
  else
    ⟨1, endLines (tokens ++ program),
      endLines ("parser errors:" :: messages.map fun m => "\t" ++ m)⟩

end Frontend.Command
