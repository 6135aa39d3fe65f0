import WordCalc.Command.Report

/-!
# The command

Gathers the arguments and the bytes of the program, and prints the report.
-/

namespace WordCalc

/-- The reading failure that the system reports as `e`. The number of a failure may come with
its sign turned. -/
def readErrorOf : IO.Error → ReadError
  | .noFileOrDirectory .. => .notFound
  | .inappropriateType _ code details =>
    if code = 21 ∨ 0 - code = 21 then .isFolder
    else if code = 20 ∨ 0 - code = 20 then .notFolder
    else .other details
  | e => .other (toString e)

/-- The lines of the program that the options name. -/
def readLines (o : Options) : IO (Except ReadError (List String)) := do
  try
    match o.path with
    | some path => return linesOfFile (← IO.FS.readBinFile path)
    | none => return linesOfStream (← (← IO.getStdin).readBinToEnd)
  catch e => return .error (readErrorOf e)

/-- Prints a report and gives its code. -/
def printReport (r : Report) : IO UInt32 := do
  IO.print r.stdout
  IO.eprint r.stderr
  return r.code

end WordCalc

open WordCalc in
/-- The command. -/
def main (args : List String) : IO UInt32 := do
  match Options.read args with
  | .error e =>
    IO.eprintln ("error: " ++ e.message ++ "\n\n" ++ Options.usage)
    return 2
  | .ok .help =>
    IO.print Options.usage
    return 0
  | .ok (.evaluate o) => printReport (Report.ofLines o (← readLines o))
