import PredictiveParsing.Xml.Definitions
import PredictiveParsing.Xml.Encoding
import PredictiveParsing.Xml.Scan

/-
Documents that stand for too much text.

A short document can stand for a very long text, by references to entities that
refer to others in turn.  While a document is read, an account is kept of the
bytes of the document and of the bytes of what references stand for.  Together
they must not come to eight mebibytes or more, unless they are at most a hundred
times as many as those of the document alone.

* `Cost` — what some charges come to;
* `Definitions.costs` — what each entity costs, with all that it refers to;
* `Account`, `Account.isBalanced` — how much has been read, and whether that is
  in order;
* `isInProportion` — whether a document can be read to its end;
* `Cost.append_assoc` — it does not matter how costs are grouped.

Design notes:

* The account is looked at after every portion, so it matters what comes first
  in a document.  A predefined entity is charged for without looking.
* What an entity costs is worked out once, and not by reading its text as often
  as it is referred to.
-/
namespace PredictiveParsing.Xml

/-! ### Costs -/

/-- What charges come to. -/
structure Cost where
  /-- In all. -/
  total : Nat := 0
  /-- Up to the last portion among them, after which the account is looked at. -/
  seen : Nat := 0
  deriving DecidableEq, Repr, Inhabited

namespace Cost

/-- The cost of a portion. -/
def ofSize (n : Nat) : Cost :=
  ⟨n, n⟩

/-- The cost of a predefined entity besides its reference. -/
def predefined : Cost :=
  ⟨1, 0⟩

/-- The cost of one thing and then another. -/
def append (a b : Cost) : Cost :=
  ⟨a.total + b.total, if b.seen = 0 then a.seen else a.total + b.seen⟩

instance : Append Cost := ⟨append⟩

/-- It does not matter how costs are grouped. -/
theorem append_assoc (a b c : Cost) : a ++ b ++ c = a ++ (b ++ c) := by
  show append (append a b) c = append a (append b c)
  by_cases hc : c.seen = 0
  · simp [append, hc, Nat.add_assoc]
  · simp [append, hc, Nat.add_assoc]

end Cost

namespace Definitions

/-- The cost of an entity, given those known. -/
def costOf (known : List (String × Cost)) (name : String) : Cost :=
  if (Reference.predefined.lookup name).isSome then .predefined
  else (known.lookup name).getD {}

/-- The cost of charges, given those of entities. -/
def totalCost (known : List (String × Cost)) (charges : List Charge) : Cost :=
  charges.foldl (fun cost charge =>
    match charge with
    | .portion n => cost ++ .ofSize n
    | .entity name => cost ++ costOf known name
    | .default => cost) {}

/-- The known costs with that of an entity, in which at most `depth` others are
nested. -/
def learnCost (d : Definitions) :
    (depth : Nat) → (known : List (String × Cost)) → (name : String) → List (String × Cost)
  | 0, known, _ => known
  | depth + 1, known, name =>
    if (known.lookup name).isSome then known
    else
      match d.text? name with
      | none => known
      | some cs =>
        let charges := entityCharges cs
        let known := (charges.filterMap Charge.entity?).foldl (learnCost d depth) known
        (name, totalCost known charges) :: known

/-- What each of some entities costs, with all that it refers to. -/
def costs (d : Definitions) (names : List String) : List (String × Cost) :=
  names.foldl (d.learnCost d.entities.length) []

/-- What the references in a value by default cost; nothing once declarations
count for nothing. -/
def defaultCost (d : Definitions) (literal : List Char) : Cost :=
  if d.isClosed then {}
  else
    let charges := (entityCharges literal).filter fun
      | .entity _ => true
      | _ => false
    totalCost (d.costs (charges.filterMap Charge.entity?)) charges

/-- The definitions after an item of a document type, as far as entities go. -/
def takeEntity (e : Encoding) (standsAlone : Bool) (d : Definitions) : SubsetItem → Definitions
  | .declaration (.attributes _ _) => d
  | item => (d.take? e standsAlone item).getD d

/-- What the values by default in an item of a document type cost. -/
def defaultCosts (d : Definitions) : SubsetItem → List Cost
  | .declaration (.attributes _ rules) => (rules.filterMap (·.default)).map d.defaultCost
  | _ => []

/-- What all values by default in a document type cost, each with the entities
declared in front of it. -/
def allDefaultCosts (e : Encoding) (standsAlone : Bool) :
    Definitions → List SubsetItem → List Cost
  | _, [] => []
  | d, item :: items =>
    d.defaultCosts item ++ allDefaultCosts e standsAlone (d.takeEntity e standsAlone item) items

end Definitions

/-! ### Accounts -/

/-- How much has been read. -/
structure Account where
  /-- The bytes of the document itself. -/
  written : Nat := 0
  /-- The bytes of what references stand for. -/
  added : Nat := 0
  deriving DecidableEq, Repr, Inhabited

/-- A number as it is in single precision: rounded to twenty-four binary digits,
a half to the even neighbour. -/
def inSinglePrecision (n : Nat) : Nat :=
  let unit := Nat.pow 2 (n.log2 - 23)
  let down := n / unit
  let rest := 2 * (n % unit)
  if rest < unit ∨ (rest = unit ∧ down % 2 = 0) then down * unit else (down + 1) * unit

namespace Account

/-- Whether what has been read is in order.  The quotient is a number in single
precision too; what is closer to a hundred than to the number above it, which
is 2⁻¹⁷ away, counts as a hundred. -/
def isBalanced (a : Account) : Bool :=
  let all := a.written + a.added
  all < 8 * 1024 * 1024 ||
    inSinglePrecision all * 262144 ≤ inSinglePrecision a.written * (100 * 262144 + 1)

/-- The account after a portion of the document. -/
def read? (a : Account) (size : Nat) : Option Account :=
  let a := { a with written := a.written + size }
  if a.isBalanced then some a else none

/-- The account after what references stand for. -/
def add? (a : Account) (cost : Cost) : Option Account :=
  if { a with added := a.added + cost.seen : Account }.isBalanced then
    some { a with added := a.added + cost.total }
  else none

/-- The account after charges for a document, given the costs of entities and of
the values by default in their order. -/
def readAll? (known : List (String × Cost)) :
    List Charge → (defaults : List Cost) → Account → Option Account
  | [], _, a => some a
  | .portion size :: charges, defaults, a =>
    match a.read? size with
    | some a => readAll? known charges defaults a
    | none => none
  | .entity name :: charges, defaults, a =>
    match a.add? (Definitions.costOf known name) with
    | some a => readAll? known charges defaults a
    | none => none
  | .default :: charges, defaults, a =>
    match a.add? (defaults.head?.getD {}) with
    | some a => readAll? known charges defaults.tail a
    | none => none

end Account

/-- Whether a document can be read to its end, given its characters as they are
written and its document type.  A document without one has nothing but
predefined entities, which are shorter than their references. -/
def isInProportion (e : Encoding) (written : List SizedChar) (standsAlone : Bool) :
    Option Doctype → Bool
  | none => true
  | some t =>
    let charges := (Scan.ofDocument (withJoinedLineEnds written)).all
    let start := Definitions.atStart standsAlone t
    let known := (t.items.foldl (Definitions.takeEntity e standsAlone) start).costs
      (charges.filterMap Charge.entity?)
    let defaults := start.allDefaultCosts e standsAlone t.items
    (Account.readAll? known charges defaults {}).isSome

end PredictiveParsing.Xml
