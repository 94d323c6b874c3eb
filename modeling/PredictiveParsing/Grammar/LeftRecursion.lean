import PredictiveParsing.Grammar.FreshName

/-
Removing direct left recursion.

An antecedent with productions `A → A α` and `A → β` gets a new non-terminal
`A'` and the productions `A → β A'`, `A' → α A'` and `A' → ε` instead.

* `Grammar.leftRecursive` — the antecedents that are directly left recursive;
* `Grammar.eliminateLeftRecursion` — the rewriting.

Design notes:

* Only direct recursion counts: `A → B x`, `B → A y` is left alone.
* A production `A → A` disappears.  An antecedent all of whose productions are
  recursive gets `A → A'`, as if it had the empty word among its productions.
* Each production is rewritten where it stands; what closes an antecedent
  (`A' → ε`) stands behind its last production.
-/
namespace PredictiveParsing

namespace Production

/-- Whether the production begins with its own antecedent. -/
def isLeftRecursive (p : Production) : Bool :=
  p.first.name == p.antecedent

/-- The production with the antecedent `prime` that stands for a recursive
production in the rewritten grammar; none for `A → A`. -/
def recursiveTail (prime : String) (p : Production) : List Sides :=
  match p.rest with
  | [] => []
  | rest => [⟨prime, rest.map Symbol.name ++ [prime]⟩]

/-- The production that stands for one that is not recursive. -/
def basePart (prime : String) (p : Production) : Sides :=
  ⟨p.antecedent, p.yield.map Symbol.name ++ [prime]⟩

end Production

namespace Grammar

/-- The directly left recursive antecedents, in order. -/
def leftRecursive (g : Grammar) : List String :=
  ((g.productions.filter Production.isLeftRecursive).map Production.antecedent).eraseDups

/-- Whether the grammar is directly left recursive. -/
def needsLeftRecursionRemoval (g : Grammar) : Bool :=
  !g.leftRecursive.isEmpty

/-- Whether some production of an antecedent is not recursive. -/
def hasBase (g : Grammar) (antecedent : String) : Bool :=
  (g.productionsOf antecedent).any fun p => p.first.name != antecedent

/-- The vocabulary of a rewriting while it names new non-terminals. -/
structure Extension where
  /-- All non-terminals, old and new. -/
  nonTerminals : List String
  /-- The names that are no longer free. -/
  taken : List String
  /-- Antecedents with the new non-terminals named after them, in order. -/
  primes : List (String × String)
  deriving Repr

/-- The vocabulary before a rewriting adds to it. -/
def unextended (g : Grammar) : Extension :=
  ⟨g.nonTerminals, g.nonTerminals ++ g.terminals, []⟩

/-- Names a new non-terminal after an antecedent. -/
def extend (g : Grammar) (policy : CollisionPolicy) (ext : Extension) (antecedent : String) :
    Except Fault Extension := do
  let n ← g.freshName policy ext.taken antecedent
  return ⟨insertAfter antecedent n ext.nonTerminals, n :: ext.taken,
    ext.primes ++ [(antecedent, n)]⟩

/-- What closes an antecedent behind its last production. -/
def closing (g : Grammar) (antecedent prime : String) : List Sides :=
  (if g.hasBase antecedent then [] else [⟨antecedent, [prime]⟩]) ++
    [⟨prime, [epsilonName]⟩]

/-- What stands for a production in the rewritten grammar; `last` says that no
other production of the antecedent follows. -/
def withoutRecursion (g : Grammar) (primes : List (String × String)) (last : Bool)
    (p : Production) : List Sides :=
  match OrderedMap.get? p.antecedent primes with
  | none => [p.sides]
  | some prime =>
    (if p.isLeftRecursive then p.recursiveTail prime else [p.basePart prime]) ++
      if last then g.closing p.antecedent prime else []

/-- What stands for a list of productions. -/
def withoutRecursionAll (g : Grammar) (primes : List (String × String)) :
    List Production → List Sides
  | [] => []
  | p :: ps =>
    g.withoutRecursion primes (ps.all fun q => q.antecedent != p.antecedent) p ++
      g.withoutRecursionAll primes ps

/-- Replaces vocabulary and productions by those of a rewriting and remembers
the names it introduced. -/
def adopt (nonTerminals introduced : List String) (sides : List Sides) : Edit Unit := fun g =>
  match g.setVocabulary nonTerminals g.terminals with
  | (.error fault, g) => (.error fault, g)
  | (.ok (), g) =>
    let names := introduced.filter fun n => n ∉ g.introduced
    setProductions (sides.map .sides) { g with introduced := g.introduced ++ names }

/-- Removes direct left recursion; the result says whether there was any. -/
def eliminateLeftRecursion (policy : CollisionPolicy) : Edit Bool := fun g =>
  match g.leftRecursive with
  | [] => (.ok false, g)
  | recursive =>
    match recursive.foldlM (g.extend policy) g.unextended with
    | .error fault => (.error fault, g)
    | .ok ext =>
      let sides := g.withoutRecursionAll ext.primes g.productions
      match g.adopt ext.nonTerminals (ext.primes.map (·.2)) sides with
      | (.error fault, g) => (.error fault, g)
      | (.ok (), g) => (.ok true, g)

end Grammar

end PredictiveParsing
