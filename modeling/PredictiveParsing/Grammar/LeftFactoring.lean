import PredictiveParsing.Grammar.LeftRecursion

/-
Left factoring.

Productions of one antecedent with the same first symbol, `A → x β` and
`A → x γ`, become `A → x A'` with `A' → β` and `A' → γ` for a new
non-terminal `A'`.

* `Grammar.group` — the productions that share antecedent and first symbol;
* `Grammar.leftFactor` — one round, which takes one symbol off every group;
* `Grammar.factorFully` — rounds until no group is left.

Design notes:

* Productions that begin with `ε` are never grouped.
* A group is rewritten where its first production stands; equal rests are
  kept once.
* The rounds are bounded by `Grammar.weight`, the joint length of all
  consequents.  A round leaves one production of each group behind for good
  and hands shorter ones to names with more apostrophes, so every round
  finishes with at least one symbol that no later round touches.
-/
namespace PredictiveParsing

namespace Grammar

/-- What the productions of a group share. -/
def groupKey (p : Production) : String × String :=
  (p.antecedent, p.first.name)

/-- The productions with the antecedent and the first symbol of the given one,
unless they begin with `ε`. -/
def group (g : Grammar) (p : Production) : List Production :=
  g.productions.filter fun q => !q.first.isEpsilon && groupKey q == groupKey p

/-- Whether a production shares antecedent and first symbol with another. -/
def isGrouped (g : Grammar) (p : Production) : Bool :=
  !p.first.isEpsilon && 1 < (g.group p).length

/-- Whether some productions can be factored. -/
def needsLeftFactoring (g : Grammar) : Bool :=
  g.productions.any g.isGrouped

/-- What the productions of a group leave behind their first symbol, without
repeats. -/
def groupRests (g : Grammar) (p : Production) : List (List Symbol) :=
  ((g.group p).map fun q => if q.rest.isEmpty then [.epsilon] else q.rest).eraseDups

/-- What stands for the group of a production, with a new non-terminal. -/
def factoredGroup (g : Grammar) (p : Production) (prime : String) : List Sides :=
  ⟨p.antecedent, [p.first.name, prime]⟩ ::
    (g.groupRests p).map fun r => ⟨prime, r.map Symbol.name⟩

/-- What stands for a list of productions, with the vocabulary it takes; the
groups in `done` have been dealt with. -/
def factoredAll (g : Grammar) (policy : CollisionPolicy) :
    (done : List (String × String)) → Extension → List Production →
    Except Fault (Extension × List Sides)
  | _, ext, [] => .ok (ext, [])
  | done, ext, p :: ps =>
    if !g.isGrouped p then do
      let (ext, sides) ← factoredAll g policy done ext ps
      return (ext, p.sides :: sides)
    else if groupKey p ∈ done then factoredAll g policy done ext ps
    else do
      let n ← g.freshName policy ext.taken p.antecedent
      let ext := ⟨insertAfter p.antecedent n ext.nonTerminals, n :: ext.taken,
        ext.primes ++ [(p.antecedent, n)]⟩
      let (ext, sides) ← factoredAll g policy (groupKey p :: done) ext ps
      return (ext, g.factoredGroup p n ++ sides)

/-- One round of left factoring; the result says whether there was a group. -/
def leftFactor (policy : CollisionPolicy) : Edit Bool := fun g =>
  if !g.needsLeftFactoring then (.ok false, g)
  else
    match g.factoredAll policy [] g.unextended g.productions with
    | .error fault => (.error fault, g)
    | .ok (ext, sides) =>
      match g.adopt ext.nonTerminals (ext.primes.map (·.2)) sides with
      | (.error fault, g) => (.error fault, g)
      | (.ok (), g) => (.ok true, g)

/-- The joint length of all consequents. -/
def weight (g : Grammar) : Nat :=
  g.productions.foldl (fun total p => total + p.size) 0

/-- At most so many rounds, up to the first that finds no group; the result
says whether any found one. -/
def factorRounds (policy : CollisionPolicy) : (rounds : Nat) → Edit Bool
  | 0, g => (.ok false, g)
  | rounds + 1, g =>
    match g.leftFactor policy with
    | (.ok true, g) =>
      match factorRounds policy rounds g with
      | (.ok _, g) => (.ok true, g)
      | failed => failed
    | finished => finished

/-- Rounds of left factoring until no group is left; the result says whether
there was one. -/
def factorFully (policy : CollisionPolicy) : Edit Bool := fun g =>
  factorRounds policy (g.weight + 1) g

end Grammar

end PredictiveParsing
