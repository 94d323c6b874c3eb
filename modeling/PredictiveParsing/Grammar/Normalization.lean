import PredictiveParsing.Grammar.LeftFactoring

/-
Normalization: no direct left recursion and no group left to factor.

* `Normalization` — a normalized grammar and what it took;
* `Grammar.normalize` — the normalization of a grammar.

Design notes:

* The work is done on a copy.  A grammar that needs nothing is handed back as
  it is, with whatever is known about it.
-/
namespace PredictiveParsing

/-- A normalized grammar and what was done to get it. -/
structure Normalization where
  grammar : Grammar
  removedLeftRecursion : Bool
  leftFactored : Bool
  deriving DecidableEq, Repr

/-- Whether the grammar is another one than before. -/
def Normalization.changed (n : Normalization) : Bool :=
  n.removedLeftRecursion || n.leftFactored

namespace Grammar

/-- Removes direct left recursion, then factors until there is nothing left to
factor. -/
def normalize (policy : CollisionPolicy) (g : Grammar) : Except Fault Normalization :=
  match g.copy.eliminateLeftRecursion policy with
  | (.error fault, _) => .error fault
  | (.ok removed, work) =>
    match work.factorFully policy with
    | (.error fault, _) => .error fault
    | (.ok factored, work) =>
      if removed || factored then .ok ⟨work, removed, factored⟩
      else .ok ⟨g, false, false⟩

end Grammar

end PredictiveParsing
