import PredictiveParsing.Diagnostic
import PredictiveParsing.Production
import PredictiveParsing.Text.Flaw
import PredictiveParsing.Value.Reading

/-
Why an operation fails.

* `FileIssue` — why the system does not read a file;
* `Fault` — the causes, each with what it is about;
* `Fault.message` — their wording;
* `FaultClass`, `Fault.family` — how a caller tells them apart.

Design notes:

* A fault stops an operation; a diagnostic does not.  Malformed documents and
  invalid grammars are faults that carry their diagnostics.
-/
namespace PredictiveParsing

/-- Why the system does not read a file: the number of its error and its
wording. -/
structure FileIssue where
  number : Nat
  description : String
  deriving DecidableEq, Repr

namespace FileIssue

/-- What is there is a directory. -/
def isDirectory : FileIssue := ⟨21, "Is a directory"⟩

/-- The name is longer than the system allows. -/
def nameTooLong : FileIssue := ⟨36, "File name too long"⟩

/-- The issue of an error of the system; some errors are worded here, the
others as they come. -/
def ofError (number : Nat) (text : String) : FileIssue :=
  let worded : List FileIssue :=
    [⟨5, "Input/output error"⟩, ⟨13, "Permission denied"⟩, isDirectory, nameTooLong]
  (worded.find? (·.number = number)).getD ⟨number, text⟩

/-- The issue says that nothing is there: no such file, no such place for one,
or a ring of links. -/
def isAbsence (issue : FileIssue) : Bool :=
  issue.number ∈ [2, 9, 20, 40]

end FileIssue

/-- Why an operation fails. -/
inductive Fault where
  /-- The displayed form of a production has no arrow. -/
  | missingArrow (text : String)
  /-- The displayed form of a production has nothing before its arrow. -/
  | emptyAntecedent (text : String)
  /-- A line of a grammar has no arrow. -/
  | lineWithoutArrow (line : String)
  /-- A line of a grammar has nothing before its arrow. -/
  | lineWithoutAntecedent (line : String)
  /-- A reserved name was to be declared. -/
  | reservedName (name : String)
  /-- No such collision policy; given as quoted. -/
  | unknownPolicy (shown : String)
  /-- A fresh name is one that somebody declared. -/
  | nameCollision (name antecedent : String)
  /-- The grammar or the document has errors. -/
  | invalidGrammar (problems : List Diagnostic)
  /-- The text is not well-formed XML. -/
  | notWellFormed
  /-- In the text, a name ends in some bytes of a character. -/
  | brokenCharacter (bytes : List UInt8) (position : Nat)
  /-- The root element is not a grammar. -/
  | unexpectedRoot (tag : String)
  /-- A rule lacks one of its two sides. -/
  | ruleWithoutSides (number : Nat)
  /-- A rule written as one text cannot be read. -/
  | unreadableRule (number : Nat) (cause : Fault)
  /-- A simulation needs a start symbol. -/
  | noStartSymbol
  /-- A reserved name stands in the input. -/
  | reservedToken (token : String)
  /-- A non-terminal stands in the input. -/
  | nonTerminalToken (token : String)
  /-- No such recovery action; given as quoted. -/
  | unknownAction (shown : String)
  /-- No such kind of issue; given as quoted. -/
  | unknownIssueKind (shown : String)
  /-- The production is not one of the grammar. -/
  | unlistedProduction
  /-- Values of the wrong shape. -/
  | invalidFields (issues : List FieldIssue)
  /-- What there is at a path cannot be read. -/
  | unreadableFile (issue : FileIssue) (path : String)
  /-- A file is not a text. -/
  | notText (flaw : Text.Flaw)
  deriving DecidableEq, Repr

/-- The families of faults. -/
inductive FaultClass where
  /-- A value that cannot be used. -/
  | value
  /-- A clash of names. -/
  | collision
  /-- A grammar or document with errors. -/
  | structure'
  /-- An unreadable grammar file. -/
  | document
  /-- Values of the wrong shape. -/
  | shape
  /-- A file that cannot be read. -/
  | file
  deriving DecidableEq, Repr

namespace Fault

/-- The family a fault belongs to. -/
def family : Fault → FaultClass
  | nameCollision _ _ => .collision
  | invalidGrammar _ => .structure'
  | notWellFormed | unexpectedRoot _ | ruleWithoutSides _ | unreadableRule _ _ => .document
  | invalidFields _ => .shape
  | unreadableFile _ _ => .file
  | _ => .value

/-- The wording of a fault. -/
def message : Fault → String
  | missingArrow text => "Invalid production (missing '" ++ arrow ++ "'): " ++ text
  | emptyAntecedent text => "Invalid production (empty left-hand side): " ++ text
  | lineWithoutArrow line => "Invalid production (missing '->'): " ++ line
  | lineWithoutAntecedent line => "Invalid production (empty LHS): " ++ line
  | reservedName n => "'" ++ n ++ "' is reserved and cannot be declared as a grammar symbol"
  | unknownPolicy shown => "Unknown collision policy: " ++ shown
  | nameCollision n a =>
    "Cannot introduce '" ++ n ++ "' for '" ++ a ++ "': the name is already in use."
  | invalidGrammar problems => Diagnostic.summary problems
  | notWellFormed => "Not a well-formed grammar file"
  | brokenCharacter bytes position => Text.Flaw.message ⟨bytes, position, .cutOff⟩
  | unexpectedRoot tag => "Expected a <grammar> root element, found <" ++ tag ++ ">"
  | ruleWithoutSides n => "Rule " ++ toString n ++ " needs both <leftPart> and <rightPart>"
  | unreadableRule n cause => "Rule " ++ toString n ++ ": " ++ cause.message
  | noStartSymbol => "The grammar has no start symbol"
  | reservedToken t => "'" ++ t ++ "' is reserved and cannot appear in the input"
  | nonTerminalToken t => "'" ++ t ++ "' is a non-terminal and cannot appear in the input"
  | unknownAction shown => shown ++ " is not a valid ErrorAction"
  | unknownIssueKind shown => shown ++ " is not a valid IssueKind"
  | unlistedProduction => "The production is not one of the grammar"
  | invalidFields issues => toString issues.length ++ " invalid fields"
  | unreadableFile issue path =>
    "[Errno " ++ toString issue.number ++ "] " ++ issue.description ++ ": " ++ Text.quoted path
  | notText flaw => flaw.message

end Fault

end PredictiveParsing
