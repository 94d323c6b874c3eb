import PredictiveParsing.Analysis
import PredictiveParsing.Document.Xml
import PredictiveParsing.Grammar.Lines
import PredictiveParsing.Simulation

/-
Reports: a grammar, its sets and table, and one run, as printed lines.

* `Report` — what was printed and how the printing ended;
* `Grammar.report` — the report on a grammar and some input tokens;
* `FileLookup` — what there is at a path, from its bytes or from the system's
  error;
* `Report.ofArguments` — the report that command line arguments ask for;
* `normalizedPath` — a path as it is displayed;
* `exit_report_invalid` — an invalid grammar ends in exit code 1.

Design notes:

* The symbol `ε` is printed as `eps`, except in the messages of an invalid
  grammar and in the input.
* Malformed documents, invalid grammars and clashing names are printed as
  errors when the grammar comes from a file; every other fault is handed back
  with what was printed before it.
* There is no report if the run that it is to show never ends.
-/
namespace PredictiveParsing

/-- What was printed, and the exit code or the fault that ended it. -/
structure Report where
  lines : List String
  exit : Except Fault Nat
  deriving Repr

namespace Report

/-- The printed text. -/
def output (r : Report) : String :=
  String.join (r.lines.map fun l => l ++ "\n")

/-- The report with more lines in front. -/
def after (lines : List String) (r : Report) : Report :=
  { r with lines := lines ++ r.lines }

/-- A report that ends here. -/
def ending (lines : List String) (code : Nat) : Report :=
  ⟨lines, .ok code⟩

/-! ### Parts -/

/-- A text with every `ε` spelt out. -/
def spelt (s : String) : String :=
  .ofList (s.toList.flatMap fun c => if c = 'ε' then "eps".toList else [c])

/-- A name, spelt out if it is `ε`. -/
def speltName (n : String) : String :=
  if n = epsilonName then "eps" else n

/-- A truth value as it is printed. -/
def flagText (b : Bool) : String :=
  if b then "True" else "False"

/-- The breaches of an invalid grammar. -/
def problemLines (problems : List Diagnostic) : List String :=
  "=== GRAMMAR ERRORS ===" :: problems.map Diagnostic.text

/-- The productions with their numbers, and what normalization did. -/
def grammarLines (a : Analysis) : List String :=
  "=== GRAMMAR ===" ::
    (if a.isUnchanged then []
     else ["(normalized: left recursion removed=" ++ flagText a.removedLeftRecursion ++
       ", left factored=" ++ flagText a.leftFactored ++ ")"]) ++
    a.grammar.numbered.map fun e => toString e.1 ++ ". " ++ spelt e.2.text

/-- The members of a set, in order. -/
def setText (s : SymbolSet) : String :=
  Text.quotedList ((s.map speltName).mergeSort fun a b => !(b < a))

/-- The sets of the declared non-terminals. -/
def setLines (title : String) (g : Grammar) (f : Family) : List String :=
  ("\n=== " ++ title ++ " ===") :: g.nonTerminals.map fun n => n ++ ": " ++ setText (f.of n)

/-- The entries of the table. -/
def tableLines (t : Table) : List String :=
  "\n=== LL(1) TABLE (non-empty cells) ===" ::
    t.filled.map fun e => "M[" ++ e.1 ++ ", " ++ e.2.1 ++ "] = " ++ spelt e.2.2.text

/-- The conflicts of the table. -/
def conflictLines (t : Table) : List String :=
  "\n=== Conflicts ===" ::
    if t.isConflictFree then ["none"]
    else t.conflicts.map fun c => spelt c.message

/-- One line of a run. -/
def stepLine (stack input action : String) : String :=
  "STACK: " ++ stack ++ " | IN: " ++ input ++ " | ACT: " ++ action

/-- A run from its start. -/
def runLines (s : Simulation) : List String :=
  stepLine s.initial.stackText s.initial.inputText "start" ::
    s.history.map (fun r => stepLine r.stack r.input (spelt r.action)) ++
    ["status: " ++ s.status.label] ++
    (match s.message with
      | some m => if m = "" then [] else ["error: " ++ m]
      | none => []) ++
    ["\n(EOF symbol is: " ++ endName ++ " )"]

/-! ### Whole reports -/

/-- The report on a run of an analysed grammar. -/
def ofRun (settings : Except Fault Settings) (g : Grammar) (t : Table) (tokens : List String) :
    Option Report :=
  let begun := do
    let start ← Simulation.start g t tokens
    let ceiling ← settings.map Settings.maxSteps
    return (start, ceiling)
  match begun with
  | .error fault => some ⟨[], .error fault⟩
  | .ok (start, ceiling) => do
    let (_, s) ← start.run ceiling
    return ending (runLines s) (if s.isAccepted then 0 else 2)

/-- The report on a valid grammar and its table. -/
def ofAnalysis (settings : Except Fault Settings) (a : Analysis) (t : Table)
    (tokens : List String) : Option Report :=
  (ofRun settings a.grammar t tokens).map <| after
    (grammarLines a ++ setLines "FIRST" a.grammar a.first ++
      setLines "FOLLOW" a.grammar a.follow ++ tableLines t ++ conflictLines t ++
      ["\n=== Parse: " ++ Text.join " " tokens ++ " ==="])

end Report

/-- The report on a grammar and some input tokens. -/
def Grammar.report (g : Grammar) (settings : Except Fault Settings) (tokens : List String) :
    Option Report :=
  match g.analyze true (Settings.policyFor settings none) [] [] with
  | .error fault => some ⟨[], .error fault⟩
  | .ok a =>
    match a.table with
    | none => some (.ending (Report.problemLines a.problems) 1)
    | some t => Report.ofAnalysis settings a t tokens

/-- An invalid grammar ends in exit code 1. -/
theorem exit_report_invalid {g : Grammar} (h : Diagnostic.hasErrors g.problems = true)
    (settings : Except Fault Settings) (tokens : List String) :
    (g.report settings tokens).map Report.exit = some (.ok 1) := by
  simp [Grammar.report, Grammar.analyze_invalid h, Report.ending]

/-! ### Command line arguments -/

/-- What there is at a path. -/
inductive FileLookup where
  | missing
  | unreadable (issue : FileIssue)
  | undecodable (flaw : Text.Flaw)
  | text (content : String)
  deriving DecidableEq, Repr

namespace FileLookup

/-- The lookup that the system refuses. -/
def ofIssue (issue : FileIssue) : FileLookup :=
  if issue.isAbsence then .missing else .unreadable issue

/-- The lookup that finds some bytes. -/
def ofBytes (bytes : ByteArray) : FileLookup :=
  match String.fromUTF8? bytes with
  | some content => .text content
  | none => .undecodable (Text.flaw bytes.toList)

/-- A text is found in its bytes. -/
theorem ofBytes_toUTF8 (content : String) : ofBytes content.toUTF8 = .text content := by
  have hread : String.fromUTF8? content.toUTF8 = some content := dif_pos content.isValidUTF8
  rw [ofBytes, hread]

end FileLookup

/-- A path without empty and `.` parts; exactly two slashes in front are kept,
and more are one. -/
def normalizedPath (path : String) : String :=
  let cs := path.toList
  let root :=
    match (cs.takeWhile (· == '/')).length with
    | 0 => ""
    | 2 => "//"
    | _ => "/"
  let parts := ((Text.pieces '/' cs).map String.ofList).filter fun p => p ≠ "" ∧ p ≠ "."
  match root ++ Text.join "/" parts with
  | "" => "."
  | shown => shown

namespace Report

/-- Whether a fault is printed as an error when the grammar comes from a
file. -/
def isPrinted (fault : Fault) : Bool :=
  fault.family ∈ [FaultClass.document, .structure', .collision]

/-- The report with a fault printed as an error, if it is one of those. -/
def withErrorPrinted (r : Report) : Report :=
  match r.exit with
  | .ok _ => r
  | .error fault =>
    if isPrinted fault then ending (r.lines ++ ["error: " ++ fault.message]) 1 else r

/-- The input of the built-in example. -/
def exampleTokens : List String := ["id", "=", "num", "+", "id", ";"]

/-- The report that arguments ask for: the path of a grammar file and tokens,
or nothing for the built-in example.  `find` says what there is at a path; of
a file the line ends become line feeds. -/
def ofArguments (settings : Except Fault Settings) (find : String → FileLookup) :
    List String → Option Report
  | [] => Grammar.assignments.report settings exampleTokens
  | path :: tokens =>
    let path := normalizedPath path
    match find path with
    | .missing => some (ending ["Grammar file not found: " ++ path] 1)
    | .unreadable issue => some ⟨[], .error (.unreadableFile issue path)⟩
    | .undecodable flaw => some ⟨[], .error (.notText flaw)⟩
    | .text content =>
      match Grammar.load (.text (.ofList (Text.withLineFeeds content.toList))) with
      | .error fault => some (withErrorPrinted ⟨[], .error fault⟩)
      | .ok g => (g.report settings tokens).map withErrorPrinted

end Report

end PredictiveParsing
