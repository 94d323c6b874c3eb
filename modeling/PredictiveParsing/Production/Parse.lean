import PredictiveParsing.Fault
import PredictiveParsing.Text.Cut

/-
Reading productions from their displayed form.

* `cutAtArrow` — the two sides of a text with an arrow;
* `Sides` — an antecedent and the names of a consequent;
* `Sides.parse` — the sides a displayed production writes;
* `Production.sides` — the sides of a production, which `parse` gives back for
  every name the displayed form can carry.

Design notes:

* The arrow is `→` if the text has one anywhere and the two characters `->`
  otherwise; the text is cut at its first occurrence.
-/
namespace PredictiveParsing

/-- The arrow in ASCII. -/
def asciiArrow : String := "->"

/-- The parts before and behind the arrow of a text. -/
def cutAtArrow (cs : List Char) : Option (List Char × List Char) :=
  if Text.contains arrow.toList cs then Text.cutAt arrow.toList cs
  else Text.cutAt asciiArrow.toList cs

/-- An antecedent and the names of a consequent. -/
structure Sides where
  antecedent : String
  names : List String
  deriving DecidableEq, Repr

namespace Sides

/-- The names of a consequent, with `ε` for none. -/
def orEpsilon : List String → List String
  | [] => [epsilonName]
  | ns => ns

/-- The sides a displayed production writes: the antecedent is what stands
before the arrow, trimmed, and the consequent is the words behind it. -/
def parse (text : String) : Except Fault Sides :=
  match cutAtArrow text.toList with
  | none => .error (.missingArrow text)
  | some (before, behind) =>
    let antecedent := Text.trim (.ofList before)
    if antecedent = "" then .error (.emptyAntecedent text)
    else .ok ⟨antecedent, orEpsilon (Text.words (.ofList behind))⟩

end Sides

/-- The names on the two sides of a production. -/
def Production.sides (p : Production) : Sides :=
  ⟨p.antecedent, p.names⟩

end PredictiveParsing
