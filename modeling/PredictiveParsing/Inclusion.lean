import PredictiveParsing.Family

/-
Systems of inclusions between sets, solved by passes.

An inclusion asks that the set of its target hold some fixed names and all
members of the sets of its sources.  A pass goes through a list of inclusions
once and adds what each of them misses at that moment; passes are repeated
until one adds nothing.

* `Inclusion.Holds` — what an inclusion asks of a family;
* `pass` — one pass, with the log of what it added;
* `solution` — the family after the last pass, with the logs of the passes
  that added something;
* `enforce_cases` — what enforcing an inclusion does;
* `le_solve` — solving only adds.

Design notes:

* A pass that changes anything adds at least one name to one target.  `room`
  bounds the additions that can ever be made, so it bounds the passes.
-/
namespace PredictiveParsing

/-- The set of `target` is to hold `constants` and the sets of `sources`. -/
structure Inclusion where
  target : String
  constants : SymbolSet
  sources : List String
  deriving DecidableEq, Repr

/-- The names added to each set in one pass, in the order of their addition. -/
abbrev PassLog := OrderedMap String (List String)

namespace Inclusion

/-- What the target is to hold, for the sets as they are. -/
def value (f : Family) (c : Inclusion) : SymbolSet :=
  c.sources.foldl (fun s n => SymbolSet.union s (f.of n)) c.constants

/-- The inclusion holds of a family. -/
def Holds (f : Family) (c : Inclusion) : Prop :=
  ∀ x ∈ c.value f, x ∈ f.of c.target

/-- What the target misses, for the sets as they are. -/
def missing (f : Family) (c : Inclusion) : SymbolSet :=
  SymbolSet.difference (c.value f) (f.of c.target)

/-- Adds what the target misses and notes it in the log. -/
def enforce (state : Family × PassLog) (c : Inclusion) : Family × PassLog :=
  match c.missing state.1 with
  | [] => state
  | added =>
    (state.1.add c.target added,
      OrderedMap.put c.target ((OrderedMap.get? c.target state.2).getD [] ++ added) state.2)

end Inclusion

/-- The log of a pass before it adds anything. -/
def PassLog.blank (f : Family) : PassLog :=
  f.map fun e => (e.1, [])

/-- Whether nothing was added. -/
def PassLog.isBlank (log : PassLog) : Bool :=
  log.all fun e => e.2.isEmpty

/-- One pass over the inclusions. -/
def pass (cs : List Inclusion) (f : Family) : Family × PassLog :=
  cs.foldl Inclusion.enforce (f, PassLog.blank f)

/-- At most so many passes, up to the first that adds nothing. -/
def solve (cs : List Inclusion) : Nat → Family → Family × List PassLog
  | 0, f => (f, [])
  | n + 1, f =>
    let passed := pass cs f
    if passed.2.isBlank then (passed.1, [])
    else
      let solved := solve cs n passed.1
      (solved.1, passed.2 :: solved.2)

/-- A bound for the additions that can ever be made. -/
def room (cs : List Inclusion) (f : Family) : Nat :=
  let names := cs.flatMap Inclusion.constants ++ f.flatMap (·.2)
  cs.length * names.length

/-- The family after the last pass, and the logs of the passes that added
something. -/
def solution (cs : List Inclusion) (f : Family) : Family × List PassLog :=
  solve cs (room cs f + 1) f

/-! ### What an inclusion asks -/

theorem mem_foldl_union {f : Family} {x : String} (ns : List String) (s : SymbolSet) :
    x ∈ ns.foldl (fun s n => SymbolSet.union s (f.of n)) s ↔
      x ∈ s ∨ ∃ n ∈ ns, x ∈ f.of n := by
  induction ns generalizing s with
  | nil => simp
  | cons n ns ih =>
    rw [List.foldl_cons, ih]
    simp [or_assoc]

@[simp] theorem Inclusion.mem_value {f : Family} {c : Inclusion} {x : String} :
    x ∈ c.value f ↔ x ∈ c.constants ∨ ∃ n ∈ c.sources, x ∈ f.of n :=
  mem_foldl_union _ _

/-- An inclusion holds exactly where nothing is missing. -/
theorem Inclusion.holds_iff_missing_eq_nil {f : Family} {c : Inclusion} :
    c.Holds f ↔ c.missing f = [] := by
  unfold Holds missing
  rw [List.eq_nil_iff_forall_not_mem]
  simp only [SymbolSet.mem_difference, not_and, Decidable.not_not]

/-- Everything enforcing an inclusion can do: nothing, or add what is missing and
note it behind what was added before. -/
theorem Inclusion.enforce_cases (state : Family × PassLog) (c : Inclusion) :
    (c.missing state.1 = [] ∧ c.enforce state = state) ∨
    (c.missing state.1 ≠ [] ∧ c.enforce state = (state.1.add c.target (c.missing state.1),
      OrderedMap.put c.target
        ((OrderedMap.get? c.target state.2).getD [] ++ c.missing state.1) state.2)) := by
  rw [enforce]
  cases hm : c.missing state.1 with
  | nil => exact .inl ⟨rfl, rfl⟩
  | cons x xs => exact .inr ⟨List.cons_ne_nil x xs, rfl⟩

/-! ### Solving only adds -/

theorem Inclusion.le_enforce (state : Family × PassLog) (c : Inclusion) (n x : String)
    (h : x ∈ state.1.of n) : x ∈ (c.enforce state).1.of n := by
  rcases c.enforce_cases state with ⟨-, he⟩ | ⟨-, he⟩
  · rwa [he]
  · rw [he]
    by_cases hn : n = c.target
    · subst hn
      simp only [Family.of_add_self, SymbolSet.mem_union]
      exact Or.inl h
    · rw [Family.of_add_of_ne hn]
      exact h

theorem le_foldl_enforce (cs : List Inclusion) (state : Family × PassLog) (n x : String)
    (h : x ∈ state.1.of n) : x ∈ (cs.foldl Inclusion.enforce state).1.of n := by
  induction cs generalizing state with
  | nil => exact h
  | cons c cs ih => exact ih _ (Inclusion.le_enforce state c n x h)

/-- Solving never takes a member away. -/
theorem le_solve (cs : List Inclusion) (k : Nat) (f : Family) (n x : String)
    (h : x ∈ f.of n) : x ∈ (solve cs k f).1.of n := by
  induction k generalizing f with
  | zero => exact h
  | succ k ih =>
    have hp : x ∈ (pass cs f).1.of n := le_foldl_enforce cs _ n x h
    simp only [solve]
    split
    · exact hp
    · exact ih _ hp

end PredictiveParsing
