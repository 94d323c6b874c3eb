import PredictiveParsing.Grammar

/-
Fresh names for rewritings.

A rewriting names a new non-terminal after an antecedent, with as many
apostrophes as it takes to be free.  Names that a rewriting made up are
passed over; a name that the user declared is a collision, which the policy
either refuses or passes over as well.

* `CollisionPolicy` — what to do about a collision;
* `Grammar.freshName` — the first free name behind an antecedent;
* `insertAfter` — the place of a new name among the declared ones;
* `mem_insertAfter` — what it gives.

Design notes:

* Among the taken names and as many candidates again, plus one, some candidate
  is free; so the search ends by counting.
-/
namespace PredictiveParsing

/-- What to do when a fresh name is one that the user declared. -/
inductive CollisionPolicy where
  /-- Fail. -/
  | refuse
  /-- Add another apostrophe. -/
  | rename
  /-- No policy at all, by its quoted name; any need of a fresh name fails. -/
  | unknown (shown : String)
  deriving DecidableEq, Repr

/-- The policy with a given name. -/
def CollisionPolicy.ofName (n : String) : CollisionPolicy :=
  if n = "raise" then refuse
  else if n = "rename" then rename
  else unknown (Text.quoted n)

/-- The name of a policy. -/
def CollisionPolicy.name : CollisionPolicy → String
  | refuse => "raise"
  | rename => "rename"
  | unknown shown => shown

/-- What marks a name as derived from another. -/
def prime (n : String) : String :=
  n ++ "'"

/-- Whether a name is another one with apostrophes behind it, or that one. -/
def isPrimed (base n : String) : Bool :=
  base.toList.isPrefixOf n.toList && (n.toList.drop base.length).all (· == '\'')

/-- The names with a new one behind its base and behind the primed names that
follow there already; at the end if the base is not among them. -/
def insertAfter (base new : String) : List String → List String
  | [] => [new]
  | n :: ns =>
    if n = base then
      n :: ns.takeWhile (isPrimed base) ++ new :: ns.dropWhile (isPrimed base)
    else n :: insertAfter base new ns

/-- The first candidate that is not taken, adding one apostrophe after the
other, unless a taken one is refused; `left` candidates may be passed over. -/
def firstFree (taken : List String) (refused : String → Bool) :
    (left : Nat) → (candidate : String) → Except String String
  | 0, n => .ok n
  | left + 1, n =>
    if n ∉ taken then .ok n
    else if refused n then .error n
    else firstFree taken refused left (prime n)

namespace Grammar

/-- Whether the user declared a name. -/
def isUserDeclared (g : Grammar) (n : String) : Bool :=
  (n ∈ g.nonTerminals && n ∉ g.introduced) || n ∈ g.terminals

/-- A fresh name for a non-terminal derived from `base`. -/
def freshName (g : Grammar) (policy : CollisionPolicy) (taken : List String) (base : String) :
    Except Fault String :=
  match policy with
  | .unknown shown => .error (.unknownPolicy shown)
  | _ =>
    let refused n := policy = .refuse && g.isUserDeclared n
    match firstFree taken refused taken.length (prime base) with
    | .ok n => .ok n
    | .error n => .error (.nameCollision n base)

end Grammar

/-! ### What insertion gives -/

@[simp] theorem mem_insertAfter {base new n : String} {ns : List String} :
    n ∈ insertAfter base new ns ↔ n = new ∨ n ∈ ns := by
  induction ns with
  | nil => simp [insertAfter]
  | cons m ms ih =>
    rw [insertAfter]
    split
    · have h : n ∈ ms ↔ n ∈ ms.takeWhile (isPrimed base) ∨ n ∈ ms.dropWhile (isPrimed base) := by
        rw [← List.mem_append, List.takeWhile_append_dropWhile]
      simp only [List.cons_append, List.mem_cons, List.mem_append, h]
      constructor
      · rintro (h | h | h | h) <;> simp [h]
      · rintro (h | h | h | h) <;> simp [h]
    · simp only [List.mem_cons, ih]
      constructor
      · rintro (h | h | h) <;> simp [h]
      · rintro (h | h | h) <;> simp [h]

end PredictiveParsing
