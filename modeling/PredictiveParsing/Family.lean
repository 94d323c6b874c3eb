import PredictiveParsing.OrderedMap
import PredictiveParsing.SymbolSet

/-
Families of sets, one set for each name.

* `Family.of` — the set of a name, empty where none is listed;
* `Family.declare`, `Family.add` — listing a name, adding to its set;
* `of_add_self`, `of_add_of_ne`, `of_declare` — the sets afterwards.
-/
namespace PredictiveParsing

/-- Sets listed by name, in the order in which the names were listed. -/
abbrev Family := OrderedMap String SymbolSet

namespace Family

/-- The set of a name. -/
def of (f : Family) (n : String) : SymbolSet :=
  (OrderedMap.get? n f).getD []

/-- The family with a name listed; a new name gets the empty set. -/
def declare (n : String) (f : Family) : Family :=
  if n ∈ OrderedMap.keys f then f else f ++ [(n, [])]

/-- The family with the members of a set added to the set of a name. -/
def add (n : String) (s : SymbolSet) (f : Family) : Family :=
  OrderedMap.put n (SymbolSet.union (of f n) s) f

/-- Names listed one after the other. -/
def declareAll (ns : List String) (f : Family) : Family :=
  ns.foldl (fun f n => declare n f) f

/-! ### The sets afterwards -/

@[simp] theorem of_add_self (n : String) (s : SymbolSet) (f : Family) :
    of (add n s f) n = SymbolSet.union (of f n) s := by
  simp [of, add]

theorem of_add_of_ne {n m : String} (h : m ≠ n) (s : SymbolSet) (f : Family) :
    of (add n s f) m = of f m := by
  simp [of, add, OrderedMap.get?_put_of_ne h]

/-- Listing a name changes no set. -/
@[simp] theorem of_declare (n m : String) (f : Family) : of (declare n f) m = of f m := by
  unfold declare
  split
  · rfl
  · simp only [of, OrderedMap.get?_append, OrderedMap.get?]
    cases OrderedMap.get? m f with
    | some s => simp
    | none => by_cases h : n = m <;> simp [h]

end Family

end PredictiveParsing
