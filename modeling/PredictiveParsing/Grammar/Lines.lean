import PredictiveParsing.Grammar

/-
Grammars written as lines.

A line `A -> x y | z | eps` writes the productions of one antecedent; blank
lines and lines that begin with `#` or `//` write nothing.  The antecedents
are the non-terminals and every other symbol is a terminal.

* `isEpsilonWord` — the spellings of `ε`;
* `Line`, `Line.parse` — an antecedent with its alternatives;
* `Grammar.ofLines` — the grammar that lines write;
* `Grammar.assignments` — the built-in grammar.

Design notes:

* All lines are cut before any symbol is classed, since a symbol is a
  non-terminal wherever the line stands that has it as antecedent.
-/
namespace PredictiveParsing

/-- Lower case for the letters that the spellings of `ε` consist of: those of
ASCII and the Greek capital epsilon. -/
def foldLetter (c : Char) : Char :=
  if c = 'Ε' then 'ε' else c.toLower

/-- Whether a word spells the empty word. -/
def isEpsilonWord (w : String) : Bool :=
  .ofList (w.toList.map foldLetter) ∈ ["ε", "eps", "epsilon"]

/-- The name a word of a line stands for. -/
def nameOfWord (w : String) : String :=
  if isEpsilonWord w then epsilonName else w

/-- An antecedent and its alternatives, each a list of names. -/
structure Line where
  antecedent : String
  alternatives : List (List String)
  deriving DecidableEq, Repr

namespace Line

/-- Whether a trimmed line writes nothing. -/
def isSkipped (cs : List Char) : Bool :=
  cs.isEmpty || ['#'].isPrefixOf cs || ['/', '/'].isPrefixOf cs

/-- The alternatives behind the arrow. -/
def alternativesOf (behind : List Char) : List (List String) :=
  (Text.pieces '|' behind).map fun alternative =>
    (Text.words (.ofList alternative)).map nameOfWord

/-- What a line writes; faults quote the line as it was given. -/
def parse (line : String) : Except Fault (Option Line) :=
  let cs := Text.trimChars line.toList
  if isSkipped cs then .ok none
  else
    match cutAtArrow cs with
    | none => .error (.lineWithoutArrow line)
    | some (before, behind) =>
      let antecedent := Text.trim (.ofList before)
      if antecedent = "" then .error (.lineWithoutAntecedent line)
      else .ok (some ⟨antecedent, alternativesOf behind⟩)

/-- The names of all consequents of a line. -/
def names (l : Line) : List String :=
  l.alternatives.flatten

/-- The productions a line writes. -/
def sides (l : Line) : List Sides :=
  l.alternatives.map fun a => ⟨l.antecedent, Sides.orEpsilon a⟩

end Line

namespace Grammar

/-- The non-terminals of lines: their antecedents. -/
def antecedentsOf (lines : List Line) : List String :=
  (lines.map Line.antecedent).eraseDups

/-- The terminals of lines: the names that are neither antecedents nor `ε`. -/
def otherNamesOf (lines : List Line) : List String :=
  ((lines.flatMap Line.names).filter fun n =>
    n ≠ epsilonName ∧ n ∉ antecedentsOf lines).eraseDups

/-- The grammar that lines write. -/
def ofLines (start : String) (lines : List String) (name description : String) :
    Except Fault Grammar := do
  let read ← lines.mapM Line.parse
  let lines := read.filterMap id
  build name description (antecedentsOf lines) (otherNamesOf lines)
    ((lines.flatMap Line.sides).map .sides) (some start)

/-- The built-in grammar: assignments with sums and products. -/
def assignments : Grammar :=
  match ofLines "S" ["S -> id = E ;", "E -> E + T | T", "T -> T * F | F", "F -> ( E ) | id | num"]
      "Assignment" "Assignments with sums and products" with
  | .ok g => g
  | .error _ => {}

end Grammar

end PredictiveParsing
