import PredictiveParsing.Fault

/-
Error functions: recovery actions for cells that hold no production.

* `ErrorAction` — what a function does, with its code (`code`, `ofCode?`);
* `ErrorFunction` — an action with an identifier, and perhaps a symbol and a
  message;
* `ErrorFunction.describe`, `ErrorFunction.text` — their displayed forms;
* `ofCode?_code` — codes name actions one to one.
-/
namespace PredictiveParsing

/-- What an error function does. -/
inductive ErrorAction where
  | terminateAnalysis
  | deleteInput
  | insertInput
  | modifyInput
  | insertStack
  | deleteStack
  | modifyStack
  deriving DecidableEq, Repr, Inhabited

namespace ErrorAction

/-- All actions. -/
def all : List ErrorAction :=
  [terminateAnalysis, deleteInput, insertInput, modifyInput, insertStack, deleteStack, modifyStack]

/-- The code an action is written by. -/
def code : ErrorAction → String
  | terminateAnalysis => "terminate-analysis"
  | deleteInput => "delete-input"
  | insertInput => "insert-input"
  | modifyInput => "modify-input"
  | insertStack => "insert-stack"
  | deleteStack => "delete-stack"
  | modifyStack => "modify-stack"

/-- The action with a given code. -/
def ofCode? (c : String) : Option ErrorAction :=
  all.find? fun a => a.code == c

/-- Whether the action puts a symbol somewhere. -/
def needsSymbol : ErrorAction → Bool
  | insertInput | modifyInput | insertStack | modifyStack => true
  | _ => false

/-- What an action does, in words. -/
def description : ErrorAction → String
  | terminateAnalysis => "Terminate the analysis"
  | deleteInput => "Delete the current input symbol"
  | insertInput => "Insert a symbol into the input"
  | modifyInput => "Replace the current input symbol"
  | insertStack => "Push a symbol onto the stack"
  | deleteStack => "Pop the top of the stack"
  | modifyStack => "Replace the top of the stack"

theorem ofCode?_code (a : ErrorAction) : ofCode? a.code = some a := by
  cases a <;> decide

end ErrorAction

/-- A recovery action under a name of its own. -/
structure ErrorFunction where
  identifier : String
  action : ErrorAction
  symbol : Option String := none
  message : Option String := none
  deriving DecidableEq, Repr, Inhabited

namespace ErrorFunction

/-- The symbol of the function; the empty text if it has none. -/
def symbolText (f : ErrorFunction) : String :=
  f.symbol.getD ""

/-- The message of the function if it has one, and otherwise what its action
does, with the symbol that it needs. -/
def describe (f : ErrorFunction) : String :=
  let message := f.message.getD ""
  if message ≠ "" then message
  else if f.symbolText ≠ "" ∧ f.action.needsSymbol then
    f.action.description ++ ": " ++ f.symbolText
  else f.action.description

/-- The identifier and the description. -/
def text (f : ErrorFunction) : String :=
  f.identifier ++ ": " ++ f.describe

/-- Whether the function lacks a symbol that its action needs. -/
def lacksSymbol (f : ErrorFunction) : Bool :=
  f.action.needsSymbol && f.symbolText == ""

end ErrorFunction

end PredictiveParsing
