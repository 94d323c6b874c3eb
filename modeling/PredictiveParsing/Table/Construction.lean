import PredictiveParsing.Follow
import PredictiveParsing.Table

/-
Building the predictive table of a grammar.

A production selects the terminals in FIRST of its consequent and, if `ε` is
in it, whatever is in FOLLOW of its antecedent.  It is entered in every cell
it selects.  A cell selected twice keeps the later production, and a conflict
is noted unless both are the same.  Error functions are then placed in cells
that are still empty.

* `Production.selected` — the terminals a production selects, in the order in
  which they are entered;
* `Table.enter`, `Table.ofProductions` — entering productions;
* `Table.register`, `Table.place` — taking in and placing error functions;
* `Grammar.buildTable` — the table of a grammar;
* `Grammar.candidates` — the productions that a cell could hold.
-/
namespace PredictiveParsing

/-- The terminals that a production selects: those of FIRST, then those of
FOLLOW. -/
def Production.selected (first follow : Family) (p : Production) : List String :=
  let fs := p.firstSet first
  SymbolSet.difference fs [epsilonName] ++
    if epsilonName ∈ fs then follow.of p.antecedent else []

namespace Table

/-! ### Productions -/

/-- Enters a production in one cell and notes a conflict if another entry has
to go. -/
def enter (t : Table) (p : Production) (terminal : String) : Table :=
  let exchanged := t.exchange p.antecedent terminal (.production p)
  let entered := exchanged.2
  match exchanged.1 with
  | none => entered
  | some previous =>
    if previous = .production p then entered
    else
      let message := "Conflict at M[" ++ p.antecedent ++ ", " ++ terminal ++ "]: " ++
        previous.text ++ " replaced by " ++ p.text
      { entered with
        conflicts := entered.conflicts ++
          [{ kind := .tableConflict, message, symbol := some p.antecedent,
             severity := .warning }] }

/-- Enters a production in all cells it selects. -/
def enterAll (first follow : Family) (t : Table) (p : Production) : Table :=
  (p.selected first follow).foldl (fun t terminal => t.enter p terminal) t

/-- The table of a grammar's productions. -/
def ofProductions (g : Grammar) (first follow : Family) : Table :=
  g.productions.foldl (enterAll first follow) (ofFrame g.nonTerminals g.terminals)

/-! ### Error functions -/

/-- Notes a problem with an error function. -/
def note (t : Table) (kind : IssueKind) (symbol message : String) : Table :=
  { t with issues := t.issues ++ [.about kind symbol message] }

/-- Takes in an error function, unless its identifier is in use or it lacks a
symbol. -/
def register (t : Table) (f : ErrorFunction) : Table :=
  if f.identifier ∈ OrderedMap.keys t.errorFunctions then
    t.note .duplicateErrorFunction f.identifier
      ("Error function '" ++ f.identifier ++ "' is defined more than once.")
  else if f.lacksSymbol then
    t.note .missingErrorSymbol f.identifier
      ("Error function '" ++ f.identifier ++ "' (" ++ f.action.code ++ ") needs a symbol.")
  else { t with errorFunctions := OrderedMap.put f.identifier f t.errorFunctions }

/-- Places an error function in a cell, if both are there and the cell is
empty. -/
def place (t : Table) (cell : (String × String) × String) : Table :=
  let row := cell.1.1
  let column := cell.1.2
  let identifier := cell.2
  let shown := "M[" ++ row ++ ", " ++ column ++ "]"
  match OrderedMap.get? identifier t.errorFunctions with
  | none =>
    t.note .unknownErrorFunction identifier
      (shown ++ " refers to an unknown error function '" ++ identifier ++ "'.")
  | some f =>
    if !t.hasCell row column then
      t.note .unknownCell row (shown ++ " is not a cell of the table.")
    else
      match t.get? row column with
      | some e =>
        t.note .occupiedCell row
          (shown ++ " already holds " ++ e.text ++ "; error function '" ++ identifier ++
            "' not placed.")
      | none => t.put row column (.errorFunction f)

end Table

/-- Cells with the identifiers of the error functions they are to hold. -/
abbrev ErrorCells := OrderedMap (String × String) String

namespace Grammar

/-- The table of a grammar, with error functions placed in empty cells; the
sets it rests on are noted in the grammar. -/
def buildTable (g : Grammar) (functions : List ErrorFunction) (cells : ErrorCells) :
    Table × Grammar :=
  let (first, follow, g) := g.knownSets
  let t := functions.foldl Table.register (Table.ofProductions g first follow)
  (cells.foldl Table.place t, g)

/-! ### Asking for one cell -/

/-- Why a production could be applied before a terminal. -/
inductive Fit where
  /-- Its consequent begins with the terminal. -/
  | direct
  /-- Its consequent begins with `ε` and the terminal can follow. -/
  | byFollow
  /-- Its consequent begins with a non-terminal that can begin with it. -/
  | byFirst
  deriving DecidableEq, Repr

/-- How a production fits a terminal, if it does. -/
def fit (first follow : Family) (terminal : String) (p : Production) : Option Fit :=
  if p.first.name = terminal then some .direct
  else if p.first.isEpsilon then
    if terminal ∈ follow.of p.antecedent then some .byFollow else none
  else if p.first.isNonTerminal && terminal ∈ first.of p.first.name then some .byFirst
  else none

/-- The productions of an antecedent that could be applied before a terminal:
those that begin with it, then empty ones, then those that begin with a
non-terminal.  The sets are noted in the grammar. -/
def candidates (g : Grammar) (antecedent terminal : String) : List Production × Grammar :=
  let (first, follow, g) := g.knownSets
  let ps := g.productionsOf antecedent
  let fitting f := ps.filter fun p => fit first follow terminal p = some f
  (fitting .direct ++ fitting .byFollow ++ fitting .byFirst, g)

/-- The displayed forms of the candidates, if there are any. -/
def candidatesText (g : Grammar) (antecedent terminal : String) : Option String :=
  match (g.candidates antecedent terminal).1 with
  | [] => none
  | ps => some (Text.join ", " (ps.map Production.text))

end Grammar

end PredictiveParsing
