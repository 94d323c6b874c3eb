import PredictiveParsing.Grammar
import PredictiveParsing.Inclusion

/-
FIRST sets.

The FIRST set of a name holds what its productions can begin with, judged by
their first symbols alone: a terminal, the end marker or `ε` stands for
itself, and a non-terminal for its own FIRST set.

* `Production.firstSet` — FIRST of a consequent;
* `Grammar.firstInclusions` — the system the FIRST sets solve;
* `Grammar.solveFirst` — the FIRST sets, with a log of how they grew;
* `Grammar.computeFirst`, `Grammar.knownFirst` — the sets, noted in the
  grammar;
* `Grammar.logFirst` — the sets, noted in the grammar, with their log.

Design notes:

* First symbols that are no non-terminals are entered beforehand; the passes
  then only follow from non-terminal to non-terminal.  The log begins with
  what was entered.
-/
namespace PredictiveParsing

/-- FIRST of the consequent of a production. -/
def Production.firstSet (first : Family) (p : Production) : SymbolSet :=
  match p.first with
  | .nonTerminal n => first.of n
  | s => [s.name]

namespace Grammar

/-- The names that have a FIRST set: the non-terminals, then any other
antecedent. -/
def firstNames (g : Grammar) : List String :=
  (g.nonTerminals ++ g.productions.map Production.antecedent).eraseDups

/-- The productions that begin with something else than a non-terminal. -/
def seeds (g : Grammar) : List Production :=
  g.productions.filter fun p => !p.first.isNonTerminal

/-- The FIRST sets before the passes. -/
def seededFirst (g : Grammar) : Family :=
  g.seeds.foldl (fun f p => f.add p.antecedent [p.first.name])
    (Family.declareAll g.firstNames [])

/-- What was entered before the passes, by name. -/
def seedLog (g : Grammar) : PassLog :=
  g.seeds.foldl (fun f p => Family.add p.antecedent [p.first.name] f)
    (Family.declareAll g.nonTerminals [])

/-- The inclusions between FIRST sets: one for each non-terminal that a
production of an antecedent begins with, taken antecedent by antecedent. -/
def firstInclusions (g : Grammar) : List Inclusion :=
  let edges := g.productions.filterMap fun p =>
    if p.first.isNonTerminal then some (p.antecedent, p.first.name) else none
  (edges.map (·.1)).eraseDups.flatMap fun a =>
    (edges.filter fun e => e.1 == a).eraseDups.map fun e => ⟨a, [], [e.2]⟩

/-- The FIRST sets, and a log: what was entered beforehand, if anything, then
what each pass added. -/
def solveFirst (g : Grammar) : Family × List PassLog :=
  let solved := solution g.firstInclusions g.seededFirst
  (solved.1, if g.seedLog.isBlank then solved.2 else g.seedLog :: solved.2)

/-- The FIRST sets, computed anew and noted. -/
def computeFirst (g : Grammar) : Family × Grammar :=
  let first := g.solveFirst.1
  (first, { g with first := some first })

/-- The FIRST sets with their log, computed anew and noted. -/
def logFirst (g : Grammar) : (Family × List PassLog) × Grammar :=
  let solved := g.solveFirst
  (solved, { g with first := some solved.1 })

/-- The FIRST sets, computed only if they are not known. -/
def knownFirst (g : Grammar) : Family × Grammar :=
  match g.first with
  | some first => (first, g)
  | none => g.computeFirst

end Grammar

end PredictiveParsing
