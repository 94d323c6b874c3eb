import PredictiveParsing.Server.Framework
import PredictiveParsing.Value.Reading

/-
How bodies are read.

* `GrammarSource.ofFields`, `TableOptions.ofFields` and so on — what the several
  requests carry, from the fields of an object;
* `readBody` — a body, read through its fields;
* `issuesResponse` — the response to a body that cannot be read.

Design notes:

* Each reader goes through the fields of an object in one fixed order, so that
  problems are reported in that order.  Fields of no meaning are passed over.
* Problems are sent with the values they are about, so these have to be finite
  numbers.
-/
namespace PredictiveParsing.Server.Standard

open Value

/-- The fields of an object. -/
abbrev Fields := List (String × Value)

def sourceOfFields (fields : Fields) : Checked GrammarSource :=
  GrammarSource.mk
    <$> withDefault "grammar" none (readOptional (Document.read .notRecord)) fields
    <*> withDefault "grammar_start" none (readOptional readText) fields
    <*> withDefault "grammar_lines" none (readOptional (readList readText)) fields

/-! ### Error functions -/

/-- A recovery action, by its code. -/
def readAction : Value → Checked ErrorAction
  | .text code =>
    match ErrorAction.ofCode? code with
    | some a => .valid a
    | none => .problem .notAMember (.text code)
  | v => .problem .notAMember v

/-- An error function. -/
def readErrorFunction : Value → Checked ErrorFunction :=
  readObject .notRecord fun fields =>
    ErrorFunction.mk
      <$> required "identifier" readText fields
      <*> required "action" readAction fields
      <*> withDefault "symbol" none (readOptional readText) fields
      <*> withDefault "message" none (readOptional readText) fields

/-- A cell with the identifier of the error function it is to hold. -/
def readErrorCell : Value → Checked ((String × String) × String) :=
  readObject .notRecord fun fields =>
    (fun row column identifier => ((row, column), identifier))
      <$> required "non_terminal" readText fields
      <*> required "terminal" readText fields
      <*> required "function" readText fields

/-! ### Requests -/

def tableOfFields (fields : Fields) : Checked TableOptions :=
  TableOptions.mk
    <$> sourceOfFields fields
    <*> withDefault "normalize" true readFlag fields
    <*> withDefault "error_functions" [] (readList readErrorFunction) fields
    <*> withDefault "error_cells" [] (OrderedMap.ofList <$> readList readErrorCell ·) fields

def setsOfFields (fields : Fields) : Checked SetsOptions :=
  SetsOptions.mk
    <$> sourceOfFields fields
    <*> withDefault "normalize" true readFlag fields
    <*> withDefault "include_working" false readFlag fields

/-- The ceiling of a run. -/
def maxStepsOfFields (fields : Fields) : Checked (Option Int) :=
  withDefault "max_steps" none (readOptional readInteger) fields

def parseOfFields (fields : Fields) : Checked ParseOptions :=
  ParseOptions.mk
    <$> tableOfFields fields
    <*> required "tokens" readText fields
    <*> maxStepsOfFields fields
    <*> withDefault "include_working" false readFlag fields

def simulationOfFields (fields : Fields) : Checked SimulationOptions :=
  SimulationOptions.mk
    <$> tableOfFields fields
    <*> required "tokens" readText fields

/-- The XML text of a grammar file. -/
def xmlOfFields (fields : Fields) : Checked String :=
  required "xml" readText fields

/-! ### Bodies -/

/-- The body of a request, read through its fields; without one there is
nothing to read. -/
def readBody {α : Type} (read : Fields → Checked α) : Option Value → Checked α
  | none | some .null => .problem .missing .null
  | some v => readObject .notRecord read v

/-- A path into a body. -/
def pathValue (steps : List PathStep) : Value :=
  .list (steps.map fun
    | .key name => .text name
    | .index n => .int n)

/-- A problem with a body. -/
def issueValue (i : FieldIssue) : Value :=
  .object [("loc", pathValue (.key "body" :: i.path)), ("type", .text i.cause.code)]

/-- The response to a body that cannot be read. -/
def issuesResponse (issues : List FieldIssue) : Response :=
  if issues.all (·.isFinite) then ⟨422, .object [("detail", .list (issues.map issueValue))]⟩
  else ⟨400, detail "Out of range float values are not JSON compliant" []⟩

/-- What a body holds, or the response if it cannot be read. -/
def readWith {α : Type} (read : Fields → Checked α) (body : Option Value) : Except Response α :=
  (readBody read body).toExcept.mapError issuesResponse

end PredictiveParsing.Server.Standard
