import PredictiveParsing.Follow
import PredictiveParsing.ParseTree.Dot
import PredictiveParsing.Settings
import PredictiveParsing.Table

/-
Results as values, in the shape in which a server answers with them.

* `diagnostic`, `grammar`, `sets`, `table`, `simulation`, `tree` — one result
  each;
* `working` — the passes in which sets were solved.
-/
namespace PredictiveParsing.Server.View

open Value

/-- A problem. -/
def diagnostic (d : Diagnostic) : Value :=
  .object
    [("kind", .text d.kind.code), ("severity", .text d.severity.label),
      ("message", .text d.message), ("symbol", .optionalText d.symbol)]

/-- The productions of a grammar with their numbers. -/
def productions (g : Grammar) : Value :=
  .texts (g.numbered.map fun e => toString e.1 ++ ". " ++ e.2.text)

/-- A grammar. -/
def grammar (g : Grammar) : Value :=
  .object
    [("name", .text g.name), ("start", .optionalText g.start),
      ("nonterminals", .texts g.nonTerminals), ("terminals", .texts g.terminals),
      ("productions", productions g)]

/-- Texts by name. -/
def textsByName (m : OrderedMap String (List String)) : Value :=
  .object (m.map fun e => (e.1, .texts e.2))

/-- Sets by name. -/
def sets (f : Family) : Value :=
  textsByName f

/-- The passes in which FIRST and FOLLOW sets were solved. -/
def working (first follow : List PassLog) : Value :=
  .object
    [("first_passes", .list (first.map textsByName)),
      ("follow_passes", .list (follow.map textsByName))]

/-- An error function, with its description for a message. -/
def errorFunction (f : ErrorFunction) : Value :=
  .object
    [("identifier", .text f.identifier), ("action", .text f.action.code),
      ("symbol", .optionalText f.symbol), ("message", .text f.describe)]

/-- A row of a table, by column. -/
def row (cells : List (String × String)) : Value :=
  .object (cells.map fun c => (c.1, .text c.2))

/-- A table, its productions numbered by a grammar. -/
def table (g : Grammar) (t : Table) : Value :=
  .object
    [("columns", .texts t.columns),
      ("rows", .object ((t.texts (some g)).map fun r => (r.1, row r.2))),
      ("error_functions", .list (t.errorFunctions.map fun e => errorFunction e.2)),
      ("conflicts", .list (t.conflicts.map diagnostic)),
      ("issues", .list (t.issues.map diagnostic))]

/-- A step of a run. -/
def record (r : Record) : Value :=
  .object
    [("step", .int r.step), ("stack", .text r.stack), ("input", .text r.input),
      ("action", .text r.action)]

/-- The fields of a simulation under a key. -/
def simulationFields (key : String) (s : Simulation) : List (String × Value) :=
  [("id", .text key), ("status", .text s.status.label),
    ("message", .optionalText s.message), ("steps", .int s.current.steps),
    ("stack", .text s.current.stackText), ("input", .text s.current.inputText),
    ("history", .list (s.history.map record)), ("derivation", .texts s.derivation)]

/-- A simulation under a key. -/
def simulation (key : String) (s : Simulation) : Value :=
  .object (simulationFields key s)

mutual

/-- A parse tree. -/
def tree : ParseTree → Value
  | .node s cs => .object [("symbol", .text s), ("children", .list (forest cs))]

/-- A list of parse trees. -/
def forest : List ParseTree → List Value
  | [] => []
  | c :: cs => tree c :: forest cs

end

/-- The outcome of a run. -/
def result (s : Simulation) : Value :=
  .object
    [("status", .text s.status.label), ("accepted", .bool s.isAccepted),
      ("error", .optionalText s.message), ("steps", .list (s.history.map record)),
      ("derivation", .texts s.derivation)]

/-- The input of a run, without and with its end marker. -/
def input (tokens : List String) : Value :=
  .object [("tokens", .texts tokens), ("tokens_with_eof", .texts (tokens ++ [endName]))]

end PredictiveParsing.Server.View
