import PredictiveParsing.Grammar

/-
Well-formedness of a grammar.

A grammar is well formed when it has productions, terminals and non-terminals,
its start symbol is a declared non-terminal, no name is declared twice, every
declared name other than the start symbol occurs in a consequent, and every
name that occurs is declared.  Each breach is one diagnostic.

* `Grammar.problems` — all breaches, in a fixed order;
* `Grammar.validate` — the breaches, and the grammar with its validity noted;
* `validity_validate` — the validity says whether there are breaches.
-/
namespace PredictiveParsing

namespace Grammar

/-- The names that occur in some consequent. -/
def usedNames (g : Grammar) : List String :=
  g.productions.flatMap Production.names

/-- What is missing altogether. -/
def missingParts (g : Grammar) : List Diagnostic :=
  (if g.productions.isEmpty then
    [{ kind := .noProductions,
       message := "The grammar has no productions. It needs at least one to be valid." }]
  else []) ++
  (if g.terminals.isEmpty then
    [{ kind := .noTerminals,
       message := "The grammar has no terminal symbols. It needs at least one to be valid." }]
  else []) ++
  (if g.nonTerminals.isEmpty then
    [{ kind := .noNonTerminals,
       message := "The grammar has no non-terminal symbols. It needs at least one to be valid." }]
  else [])

/-- What is wrong with the start symbol. -/
def startProblems (g : Grammar) : List Diagnostic :=
  match g.start with
  | none => [{ kind := .noStartSymbol, message := "The grammar has no start symbol assigned." }]
  | some s =>
    if s ∈ g.nonTerminals then []
    else [.about .startNotDeclared s
      ("The start symbol '" ++ s ++ "' is not a declared non-terminal.")]

/-- Names declared on both sides of the vocabulary. -/
def doubleDeclarations (g : Grammar) : List Diagnostic :=
  (g.terminals.filter fun n => n ∈ g.nonTerminals).map fun n =>
    .about .duplicateSymbol n
      ("The symbol '" ++ n ++ "' is declared both as a terminal and as a non-terminal.")

/-- Terminals that no consequent uses. -/
def unusedTerminals (g : Grammar) : List Diagnostic :=
  (g.terminals.filter fun n => n ∉ g.usedNames).map fun n =>
    .about .unusedTerminal n
      ("The terminal '" ++ n ++ "' does not appear in the consequent of any production.")

/-- Non-terminals other than the start symbol that no consequent uses. -/
def unusedNonTerminals (g : Grammar) : List Diagnostic :=
  (g.nonTerminals.filter fun n => some n ≠ g.start ∧ n ∉ g.usedNames).map fun n =>
    .about .unusedNonTerminal n
      ("The non-terminal '" ++ n ++ "' does not appear in the consequent of any production.")

/-- Antecedents that are no declared non-terminals. -/
def undeclaredAntecedents (g : Grammar) : List Diagnostic :=
  (g.productions.filter fun p => p.antecedent ∉ g.nonTerminals).map fun p =>
    .about .undeclaredAntecedent p.antecedent
      ("The antecedent '" ++ p.antecedent ++ "' of production '" ++ p.text ++
        "' is not a declared non-terminal.")

/-- Symbols of consequents that are neither declared nor `ε`. -/
def undeclaredSymbols (g : Grammar) : List Diagnostic :=
  g.productions.flatMap fun p =>
    (p.consequent.filter fun s =>
      !(s.isEpsilon || g.isNonTerminal s.name || g.isTerminal s.name)).map fun s =>
        .about .undeclaredSymbol s.name
          ("The symbol '" ++ s.name ++ "' in production '" ++ p.text ++
            "' is not a declared symbol.")

/-- All breaches of well-formedness. -/
def problems (g : Grammar) : List Diagnostic :=
  g.missingParts ++ g.startProblems ++ g.doubleDeclarations ++ g.unusedTerminals ++
    g.unusedNonTerminals ++ g.undeclaredAntecedents ++ g.undeclaredSymbols

/-- The breaches, and the grammar with its validity noted. -/
def validate (g : Grammar) : List Diagnostic × Grammar :=
  let ds := g.problems
  (ds, { g with validity := if Diagnostic.hasErrors ds then .invalid else .valid })

/-- The validity noted says whether there are errors. -/
theorem validity_validate (g : Grammar) :
    g.validate.2.validity = .valid ↔ Diagnostic.hasErrors g.problems = false := by
  cases h : Diagnostic.hasErrors g.problems <;> simp [validate, h]

end Grammar

end PredictiveParsing
