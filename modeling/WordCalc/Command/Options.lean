import WordCalc.Numeral
import WordCalc.Run

/-!
# Options

The arguments of the command, read from left to right. An option is given once at most, its name
is not abbreviated, and at most one argument is a path. The argument `--` ends the options: what
follows it is a path whatever it looks like. A lone `-` is a path too.
-/

namespace WordCalc

/-- What the command is asked to do. -/
structure Options where
  strictZeroCheck : Bool := false
  listDefinitions : Bool := false
  maxSteps : Option Nat := none
  /-- The program to evaluate; without it, the standard input is evaluated. -/
  path : Option String := none

/-- Why the arguments of the command cannot be used. -/
inductive UsageError where
  | unknownOption (arg : String)
  | repeatedOption (name : String)
  | unexpectedValue (name : String)
  | missingValue (name : String)
  | invalidValue (name value : String)
  | emptyPath
  | extraPath (arg : String)

namespace UsageError

/-- The report of a usage error. -/
def message : UsageError → String
  | unknownOption arg => "unexpected argument " ++ arg
  | repeatedOption name => name ++ " can be given only once"
  | unexpectedValue name => name ++ " takes no value"
  | missingValue name => name ++ " needs a value"
  | invalidValue name value => "invalid value " ++ value ++ " for " ++ name
  | emptyPath => "the path is empty"
  | extraPath arg => "unexpected second path " ++ arg

end UsageError

/-- What the arguments of the command ask for. -/
inductive Request where
  | help
  | evaluate (options : Options)

namespace Options

/-- How the command is used. -/
def usage : String :=
  "Usage: wordcalc [OPTIONS] [PATH]\n\n" ++
  "Evaluates a program, a command line per line, and prints the final stack.\n" ++
  "Without PATH, reads the standard input.\n\n" ++
  "  --strict-zero-check  Refuse a zero on top before every operator, not only /\n" ++
  "  --max-steps N        Give up after N words\n" ++
  "  --macros             Print the definitions after the stack\n" ++
  "  -h, --help           Print this text\n"

/-- The settings that the options choose. -/
def settings (o : Options) : Settings where
  zeroCheck := if o.strictZeroCheck then .anyOperator else .divisionOnly
  maxSteps := o.maxSteps

/-- The greatest number of steps that can be asked for, `2 ^ 64 - 1`. -/
def greatestCount : Nat := 18446744073709551615

/-- A count is written in digits, with a plus sign or without one. -/
def count? (text : String) : Option Nat :=
  let digits :=
    match text.toList with
    | '+' :: cs => cs
    | cs => cs
  (Numeral.digitsValue? digits).filter fun n => n ≤ greatestCount

/-- Takes `arg` as the path. -/
def takePath (o : Options) (arg : String) : Except UsageError Options :=
  if arg.isEmpty then .error .emptyPath
  else if o.path.isSome then .error (.extraPath arg)
  else .ok { o with path := some arg }

/-- Takes `value` as the value of the option `--max-steps`. -/
def takeMaxSteps (o : Options) (value : String) : Except UsageError Options :=
  match count? value with
  | none => .error (.invalidValue "--max-steps" value)
  | some n =>
    if o.maxSteps.isSome then .error (.repeatedOption "--max-steps")
    else .ok { o with maxSteps := some n }

/-- Takes the option `--strict-zero-check`. -/
def takeStrictZeroCheck (o : Options) : Except UsageError Options :=
  if o.strictZeroCheck then .error (.repeatedOption "--strict-zero-check")
  else .ok { o with strictZeroCheck := true }

/-- Takes the option `--macros`. -/
def takeListDefinitions (o : Options) : Except UsageError Options :=
  if o.listDefinitions then .error (.repeatedOption "--macros")
  else .ok { o with listDefinitions := true }

/-- Whether `arg` looks like an option and so is no value. -/
def looksLikeOption (arg : String) : Bool :=
  arg.toList.head? == some '-'

/-- The part of `arg` before the first equals sign, and the part after it if there is one. -/
def nameAndValue (arg : String) : String × Option String :=
  let name := arg.toList.takeWhile (· ≠ '=')
  match arg.toList.dropWhile (· ≠ '=') with
  | [] => (String.ofList name, none)
  | _ :: value => (String.ofList name, some (String.ofList value))

/-- Reads arguments all of which are paths. -/
def readPaths (o : Options) : List String → Except UsageError Options
  | [] => .ok o
  | arg :: args =>
    match o.takePath arg with
    | .ok o => o.readPaths args
    | .error e => .error e

/-- What an argument in front of `--` stands for. -/
inductive Argument where
  /-- The end of the options. -/
  | endMark
  | help
  /-- A path, or an option that is complete. -/
  | complete (take : Options → Except UsageError Options)
  /-- The option `--max-steps`, whose value is the next argument. -/
  | maxSteps

/-- The option that `arg` names. -/
def readOption (arg : String) : Except UsageError Argument :=
  match nameAndValue arg with
  | ("--help", none) => .ok .help
  | ("--strict-zero-check", none) => .ok (.complete takeStrictZeroCheck)
  | ("--macros", none) => .ok (.complete takeListDefinitions)
  | ("--max-steps", none) => .ok .maxSteps
  | ("--max-steps", some value) => .ok (.complete fun o => o.takeMaxSteps value)
  | ("--help", some _) => .error (.unexpectedValue "--help")
  | ("--strict-zero-check", some _) => .error (.unexpectedValue "--strict-zero-check")
  | ("--macros", some _) => .error (.unexpectedValue "--macros")
  | _ => .error (.unknownOption arg)

/-- What `arg` stands for in front of `--`. -/
def readArgument (arg : String) : Except UsageError Argument :=
  if arg == "--" then .ok .endMark
  else if !looksLikeOption arg || arg == "-" then .ok (.complete fun o => o.takePath arg)
  else if arg.toList.take 2 == ['-', 'h'] then .ok .help
  else readOption arg

/-- Reads arguments on top of what `o` has gathered. -/
def readFrom (o : Options) : List String → Except UsageError Request
  | [] => .ok (.evaluate o)
  | arg :: args =>
    match readArgument arg with
    | .error e => .error e
    | .ok .endMark => (o.readPaths args).map .evaluate
    | .ok .help => .ok .help
    | .ok (.complete take) =>
      match take o with
      | .ok o => o.readFrom args
      | .error e => .error e
    | .ok .maxSteps =>
      match args with
      | [] => .error (.missingValue "--max-steps")
      | value :: args =>
        if looksLikeOption value then .error (.missingValue "--max-steps")
        else
          match o.takeMaxSteps value with
          | .ok o => o.readFrom args
          | .error e => .error e

/-- Reads the arguments of the command. -/
def read (args : List String) : Except UsageError Request :=
  readFrom {} args

end Options

end WordCalc
