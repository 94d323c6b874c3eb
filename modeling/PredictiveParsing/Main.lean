import PredictiveParsing.Report

/-
The command line: prints the sets, the table and a run of a grammar.

Without arguments it takes the built-in grammar; otherwise the first argument
is a grammar file and the others are the input tokens.

* `main` — prints the report that the arguments ask for.

Design notes:

* Only what the report needs to be told is done here: reading the environment
  and the file, printing, and the exit code.
-/
namespace PredictiveParsing.CommandLine

/-- The variables of the environment that settings are read from. -/
def environment : IO (List (String × String)) :=
  Settings.variableNames.filterMapM fun v => do
    return (← IO.getEnv v.2).map fun text => (v.2, text)

/-- The issue that an error of the system is. -/
def issue? : IO.Error → Option FileIssue
  | .alreadyExists _ n text | .otherError n text | .resourceBusy n text
  | .resourceVanished n text | .unsupportedOperation n text | .hardwareFault n text
  | .unsatisfiedConstraints n text | .illegalOperation n text | .protocolError n text
  | .timeExpired n text | .interrupted _ n text | .noFileOrDirectory _ n text
  | .invalidArgument _ n text | .permissionDenied _ n text | .resourceExhausted _ n text
  | .inappropriateType _ n text | .noSuchThing _ n text =>
    -- The number may come with a minus sign.
    some (.ofError (min n.toNat (0 - n).toNat) text)
  | .unexpectedEof | .userError _ => none

/-- What there is at a path. -/
def find (path : String) : IO FileLookup := do
  try return .ofBytes (← IO.FS.readBinFile path)
  catch error =>
    match issue? error with
    | some issue => return .ofIssue issue
    | none => throw error

/-- Prints a report and hands back its exit code; a fault is printed on the
error channel. -/
def print (r : Report) : IO UInt32 := do
  IO.print r.output
  match r.exit with
  | .ok code => return code.toUInt32
  | .error fault =>
    IO.eprintln fault.message
    return 1

end PredictiveParsing.CommandLine

open PredictiveParsing in
/-- Prints the report that the arguments ask for. -/
def main (arguments : List String) : IO UInt32 := do
  let settings := Settings.ofEnvironment (← CommandLine.environment)
  let found ← match arguments with
    | [] => pure .missing
    | path :: _ => CommandLine.find (normalizedPath path)
  match Report.ofArguments settings (fun _ => found) arguments with
  | some report => CommandLine.print report
  -- The run never ends, so neither does the search for the report.
  | none => return 2
