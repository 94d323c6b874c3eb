import PredictiveParsing.Grammar.Normalization
import PredictiveParsing.Grammar.Validation
import PredictiveParsing.Settings
import PredictiveParsing.Table.Construction

/-
The whole analysis of a grammar: validation, normalization, sets and table.

* `Analysis` — everything that was found out;
* `Grammar.analyze` — the analysis of a grammar;
* `Grammar.analyze_invalid` — an invalid grammar is only validated.

Design notes:

* A grammar that needs no normalization is itself the result, so the sets
  found are then known of the grammar that was handed in as well.
-/
namespace PredictiveParsing

/-- What an analysis finds out. -/
structure Analysis where
  /-- The grammar that was handed in. -/
  given : Grammar
  /-- The grammar that sets and table belong to. -/
  grammar : Grammar
  removedLeftRecursion : Bool := false
  leftFactored : Bool := false
  problems : List Diagnostic
  first : Family := []
  follow : Family := []
  /-- The table; none if the grammar is invalid. -/
  table : Option Table := none
  deriving Repr

namespace Analysis

/-- Whether the grammar is well formed. -/
def isValid (a : Analysis) : Bool :=
  !Diagnostic.hasErrors a.problems

/-- Whether the result is the grammar that was handed in. -/
def isUnchanged (a : Analysis) : Bool :=
  !(a.removedLeftRecursion || a.leftFactored)

end Analysis

namespace Grammar

/-- Normalizes a grammar if that is asked for. -/
def normalizeIf (normalizing : Bool) (policy : Except Fault CollisionPolicy) (g : Grammar) :
    Except Fault Normalization :=
  if normalizing then policy.bind fun policy => g.normalize policy
  else .ok ⟨g, false, false⟩

/-- The sets of a grammar, computed anew, and its table. -/
def solveAll (g : Grammar) (functions : List ErrorFunction) (cells : ErrorCells) :
    Family × Family × Table × Grammar :=
  let (first, g) := g.computeFirst
  let (follow, g) := g.computeFollow first
  let (table, g) := g.buildTable functions cells
  (first, follow, table, g)

/-- The analysis of a grammar.  The policy is looked at only if the grammar is
valid and to be normalized. -/
def analyze (g : Grammar) (normalizing : Bool) (policy : Except Fault CollisionPolicy)
    (functions : List ErrorFunction) (cells : ErrorCells) : Except Fault Analysis :=
  let (problems, g) := g.validate
  if Diagnostic.hasErrors problems then .ok { given := g, grammar := g, problems }
  else do
    let n ← g.normalizeIf normalizing policy
    let (first, follow, table, solved) := n.grammar.solveAll functions cells
    return {
      given := if n.changed then g else solved
      grammar := solved
      removedLeftRecursion := n.removedLeftRecursion
      leftFactored := n.leftFactored
      problems, first, follow, table := some table }

/-- An invalid grammar is only validated. -/
theorem analyze_invalid {g : Grammar} (h : Diagnostic.hasErrors g.problems = true)
    (normalizing : Bool) (policy : Except Fault CollisionPolicy)
    (functions : List ErrorFunction) (cells : ErrorCells) :
    g.analyze normalizing policy functions cells =
      .ok { given := g.validate.2, grammar := g.validate.2, problems := g.problems } := by
  simp [analyze, validate, h]

end Grammar

end PredictiveParsing
