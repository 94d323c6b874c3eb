import PredictiveParsing.First

/-
FOLLOW sets.

The FOLLOW set of a non-terminal holds what can stand right behind it,
judged by its right neighbour alone.  At the end of a consequent that is
whatever can follow the antecedent; before a terminal, that terminal; before a
non-terminal, its FIRST set without `ε`, and whatever can follow the
antecedent as well if the neighbour has a production that begins with `ε`.

* `neighbours` — the non-terminals of consequents with what follows;
* `Grammar.followInclusions` — the system the FOLLOW sets solve;
* `Grammar.solveFollow` — the FOLLOW sets, with a log of how they grew;
* `Grammar.computeFollow`, `Grammar.knownSets` — the sets, noted in the
  grammar;
* `Grammar.givenFirst` — the FIRST sets that FOLLOW sets rest on;
* `Grammar.logFollow` — the sets, noted in the grammar, with their log.
-/
namespace PredictiveParsing

namespace Grammar

/-- The non-terminals of a list of symbols, each with its right neighbour. -/
def neighbours : List Symbol → List (String × Option Symbol)
  | [] => []
  | .nonTerminal n :: ss => (n, ss.head?) :: neighbours ss
  | _ :: ss => neighbours ss

/-- What the FOLLOW set of a non-terminal is to hold for one occurrence of it
in a production of `antecedent`. -/
def occurrenceInclusion (g : Grammar) (first : Family) (antecedent : String) :
    String × Option Symbol → Inclusion
  | (n, none) => ⟨n, [], [antecedent]⟩
  | (n, some (.nonTerminal m)) =>
    ⟨n, SymbolSet.difference (first.of m) [epsilonName],
      if g.hasEpsilonProduction m then [antecedent] else []⟩
  | (n, some (.terminal t)) => ⟨n, [t], []⟩
  | (n, some _) => ⟨n, [], []⟩

/-- The inclusions between FOLLOW sets: one for each occurrence of a
non-terminal in a consequent, in order. -/
def followInclusions (g : Grammar) (first : Family) : List Inclusion :=
  g.productions.flatMap fun p =>
    (neighbours p.consequent).map (g.occurrenceInclusion first p.antecedent)

/-- The FOLLOW sets before the passes: only the end marker can follow the start
symbol. -/
def seededFollow (g : Grammar) (first : Family) : Family :=
  let listed := Family.declareAll g.nonTerminals []
  let started := match g.start with
    | some s => (Family.declare s listed).add s [endName]
    | none => listed
  Family.declareAll ((g.followInclusions first).map Inclusion.target) started

/-- The FOLLOW sets for given FIRST sets, and a log of what each pass added. -/
def solveFollow (g : Grammar) (first : Family) : Family × List PassLog :=
  solution (g.followInclusions first) (g.seededFollow first)

/-- The FOLLOW sets for given FIRST sets, computed anew and noted. -/
def computeFollow (g : Grammar) (first : Family) : Family × Grammar :=
  let follow := (g.solveFollow first).1
  (follow, { g with follow := some follow })

/-- The FIRST sets that FOLLOW sets rest on: those given, or else those known. -/
def givenFirst (given : Option Family) (g : Grammar) : Family × Grammar :=
  match given with
  | some first => (first, g)
  | none => g.knownFirst

/-- The FOLLOW sets with their log, computed anew and noted. -/
def logFollow (given : Option Family) (g : Grammar) : (Family × List PassLog) × Grammar :=
  let (first, g) := g.givenFirst given
  let solved := g.solveFollow first
  (solved, { g with follow := some solved.1 })

/-- FIRST and FOLLOW sets, each computed only if it is not known. -/
def knownSets (g : Grammar) : Family × Family × Grammar :=
  let (first, g) := g.knownFirst
  match g.follow with
  | some follow => (first, follow, g)
  | none =>
    let (follow, g) := g.computeFollow first
    (first, follow, g)

end Grammar

end PredictiveParsing
