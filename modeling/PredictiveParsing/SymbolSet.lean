/-
Finite sets of names.

A set is the list of its members in ascending order of code points, without
repeats, so that equal sets are equal lists and a set is displayed as it is.

* `insert`, `ofList`, `union`, `difference` — operations;
* `mem_insert`, `mem_ofList`, `mem_union`, `mem_difference` — their members.
-/
namespace PredictiveParsing

/-- A set of names, as its members in ascending order. -/
abbrev SymbolSet := List String

namespace SymbolSet

/-- The set with one more member. -/
def insert (x : String) : SymbolSet → SymbolSet
  | [] => [x]
  | y :: ys =>
    if x = y then y :: ys
    else if x < y then x :: y :: ys
    else y :: insert x ys

/-- The set of the members of a list. -/
def ofList (xs : List String) : SymbolSet :=
  xs.foldl (fun s x => insert x s) []

/-- The members of either set. -/
def union (s t : SymbolSet) : SymbolSet :=
  t.foldl (fun s x => insert x s) s

/-- The members of the first set that are not in the second. -/
def difference (s t : SymbolSet) : SymbolSet :=
  s.filter fun x => x ∉ t

/-! ### Members -/

@[simp] theorem mem_insert {x y : String} {s : SymbolSet} :
    y ∈ insert x s ↔ y = x ∨ y ∈ s := by
  induction s with
  | nil => simp [insert]
  | cons z zs ih =>
    rw [insert]
    split
    · next h => subst h; simp
    · split
      · simp
      · simp only [List.mem_cons, ih]
        constructor
        · rintro (h | h | h) <;> simp [h]
        · rintro (h | h | h) <;> simp [h]

@[simp] theorem mem_union {y : String} {s t : SymbolSet} :
    y ∈ union s t ↔ y ∈ s ∨ y ∈ t := by
  unfold union
  induction t generalizing s with
  | nil => simp
  | cons x xs ih =>
    rw [List.foldl_cons, ih, mem_insert, List.mem_cons]
    constructor
    · rintro ((h | h) | h) <;> simp [h]
    · rintro (h | h | h) <;> simp [h]

@[simp] theorem mem_ofList {y : String} {xs : List String} : y ∈ ofList xs ↔ y ∈ xs := by
  have := mem_union (y := y) (s := []) (t := xs)
  simpa [union, ofList] using this

@[simp] theorem mem_difference {y : String} {s t : SymbolSet} :
    y ∈ difference s t ↔ y ∈ s ∧ y ∉ t := by
  simp [difference]

end SymbolSet

end PredictiveParsing
