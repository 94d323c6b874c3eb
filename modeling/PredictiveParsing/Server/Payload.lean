import PredictiveParsing.Document
import PredictiveParsing.Grammar.Lines
import PredictiveParsing.Table.Construction

/-
What requests carry.

* `GrammarSource` — a grammar as a document, as lines, or left out;
* `TableOptions`, `SetsOptions`, `ParseOptions`, `SimulationOptions` — what the
  several requests carry;
* `GrammarSource.grammar` — the grammar that is meant.
-/
namespace PredictiveParsing.Server

/-- A grammar: a document, or a start symbol with lines, or neither. -/
structure GrammarSource where
  document : Option Document := none
  start : Option String := none
  lines : Option (List String) := none
  deriving Repr

/-- The grammar that is meant: that of the document, or else of the lines if
there are any and a start symbol with them, or else the built-in one. -/
def GrammarSource.grammar (s : GrammarSource) : Except Fault Grammar :=
  match s.document with
  | some d => d.toGrammar
  | none =>
    let lines := s.lines.getD []
    let start := s.start.getD ""
    if lines ≠ [] ∧ start ≠ "" then Grammar.ofLines start lines "" ""
    else .ok Grammar.assignments

/-- What a table is to be built from. -/
structure TableOptions where
  source : GrammarSource
  normalizing : Bool := true
  functions : List ErrorFunction := []
  cells : ErrorCells := []
  deriving Repr

/-- What sets are to be computed for. -/
structure SetsOptions where
  source : GrammarSource
  normalizing : Bool := true
  withWorking : Bool := false
  deriving Repr

/-- What is to be analysed and run at once. -/
structure ParseOptions where
  table : TableOptions
  tokens : String
  maxSteps : Option Int := none
  withWorking : Bool := false
  deriving Repr

/-- What a simulation is to be created from. -/
structure SimulationOptions where
  table : TableOptions
  tokens : String
  deriving Repr

end PredictiveParsing.Server
