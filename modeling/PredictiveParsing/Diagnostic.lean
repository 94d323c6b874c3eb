/-
Problems found in a grammar or a table.

A diagnostic is not a failure: diagnostics are collected and handed back.

* `IssueKind` — what is wrong, with its code (`code`, `ofCode?`);
* `Severity` — how bad it is;
* `Diagnostic` — one problem, with its displayed form (`text`);
* `Diagnostic.hasErrors` — whether a list holds a real error;
* `ofCode?_code`, `code_of_ofCode?` — codes name kinds one to one.
-/
namespace PredictiveParsing

/-- What is wrong with a grammar, a table or a document. -/
inductive IssueKind where
  | noProductions
  | noTerminals
  | noNonTerminals
  | noStartSymbol
  | startNotDeclared
  | unusedTerminal
  | unusedNonTerminal
  | undeclaredAntecedent
  | undeclaredSymbol
  | duplicateSymbol
  | tableConflict
  | unknownErrorFunction
  | duplicateErrorFunction
  | missingErrorSymbol
  | unknownCell
  | occupiedCell
  | malformedRule
  | reservedSymbol
  deriving DecidableEq, Repr, Inhabited

namespace IssueKind

/-- All kinds: those of grammars, then of tables, then of documents. -/
def all : List IssueKind :=
  [noProductions, noTerminals, noNonTerminals, noStartSymbol, startNotDeclared,
    unusedTerminal, unusedNonTerminal, undeclaredAntecedent, undeclaredSymbol,
    duplicateSymbol, tableConflict, unknownErrorFunction, duplicateErrorFunction,
    missingErrorSymbol, unknownCell, occupiedCell, malformedRule, reservedSymbol]

/-- The code a kind is displayed by. -/
def code : IssueKind → String
  | noProductions => "no-productions"
  | noTerminals => "no-terminals"
  | noNonTerminals => "no-non-terminals"
  | noStartSymbol => "no-start-symbol"
  | startNotDeclared => "start-not-declared"
  | unusedTerminal => "unused-terminal"
  | unusedNonTerminal => "unused-non-terminal"
  | undeclaredAntecedent => "undeclared-antecedent"
  | undeclaredSymbol => "undeclared-symbol"
  | duplicateSymbol => "duplicate-symbol"
  | tableConflict => "table-conflict"
  | unknownErrorFunction => "unknown-error-function"
  | duplicateErrorFunction => "duplicate-error-function"
  | missingErrorSymbol => "missing-error-symbol"
  | unknownCell => "unknown-cell"
  | occupiedCell => "occupied-cell"
  | malformedRule => "malformed-rule"
  | reservedSymbol => "reserved-symbol"

/-- The kind with a given code. -/
def ofCode? (c : String) : Option IssueKind :=
  all.find? fun k => k.code == c

theorem ofCode?_code (k : IssueKind) : ofCode? k.code = some k := by
  cases k <;> decide

theorem code_of_ofCode? {c : String} {k : IssueKind} (h : ofCode? c = some k) :
    k.code = c := by
  simpa using List.find?_some h

end IssueKind

/-- How bad a problem is; only an error spoils a grammar. -/
inductive Severity where
  | info
  | warning
  | error
  deriving DecidableEq, Repr, Inhabited

/-- The word a severity is displayed by. -/
def Severity.label : Severity → String
  | info => "INFO"
  | warning => "WARNING"
  | error => "ERROR"

/-- The severity with a given word. -/
def Severity.ofLabel? (l : String) : Option Severity :=
  [Severity.info, .warning, .error].find? fun s => s.label == l

/-- One problem, with the symbol it is about if there is one. -/
structure Diagnostic where
  kind : IssueKind
  message : String
  symbol : Option String := none
  severity : Severity := .error
  deriving DecidableEq, Repr, Inhabited

namespace Diagnostic

/-- An error that is about one symbol. -/
def about (kind : IssueKind) (symbol message : String) : Diagnostic :=
  { kind, message, symbol := some symbol }

/-- The displayed form: the code in brackets, then the message. -/
def text (d : Diagnostic) : String :=
  "[" ++ d.kind.code ++ "] " ++ d.message

/-- Whether some problem of the list is an error. -/
def hasErrors (ds : List Diagnostic) : Bool :=
  ds.any fun d => d.severity == .error

/-- The messages of a list in one line. -/
def summary (ds : List Diagnostic) : String :=
  match "; ".intercalate (ds.map Diagnostic.message) with
  | "" => "Invalid grammar"
  | line => line

end Diagnostic

end PredictiveParsing
