import PredictiveParsing.Follow
import PredictiveParsing.Proofs.Sets.First

/-
What the FOLLOW sets hold.

* `mem_neighbours` — an occurrence of a non-terminal with its right neighbour;
* `endName_mem_solveFollow` — the end marker follows the start symbol;
* `mem_solveFollow_of_last`, `mem_solveFollow_of_terminal`,
  `mem_solveFollow_of_first`, `mem_solveFollow_of_empty` — what follows an
  occurrence, by its right neighbour;
* `Grammar.Follows` — the least relation with these rules;
* `mem_solveFollow_iff` — the FOLLOW sets hold exactly what it says.
-/
namespace PredictiveParsing

namespace Grammar

variable {g : Grammar} {first : Family}

theorem mem_neighbours (before behind : List Symbol) (n : String) :
    (n, behind.head?) ∈ neighbours (before ++ .nonTerminal n :: behind) := by
  induction before with
  | nil => exact List.mem_cons_self
  | cons s before ih =>
    cases s <;> simp only [List.cons_append, neighbours]
    · exact ih
    · exact List.mem_cons_of_mem _ ih
    · exact ih
    · exact ih

/-- The FOLLOW sets hold what they are to hold for an occurrence. -/
theorem occurrenceInclusion_holds {p : Production} (hp : p ∈ g.productions)
    {before behind : List Symbol} {n : String}
    (hc : p.consequent = before ++ .nonTerminal n :: behind) :
    (g.occurrenceInclusion first p.antecedent (n, behind.head?)).Holds (g.solveFollow first).1 := by
  refine holds_solution _ _ _ (List.mem_flatMap.2 ⟨p, hp, List.mem_map_of_mem ?_⟩)
  rw [hc]
  exact mem_neighbours before behind n

/-- The end marker follows the start symbol. -/
theorem endName_mem_solveFollow {s : String} (hs : g.start = some s) :
    endName ∈ (g.solveFollow first).1.of s := by
  refine le_solve _ _ _ _ _ ?_
  rw [seededFollow, Family.of_declareAll, hs]
  simp

section

variable {p : Production} (hp : p ∈ g.productions) {before behind : List Symbol} {n m x : String}

include hp

/-- What follows the antecedent follows the last symbol. -/
theorem mem_solveFollow_of_last (hc : p.consequent = before ++ [.nonTerminal n])
    (hx : x ∈ (g.solveFollow first).1.of p.antecedent) : x ∈ (g.solveFollow first).1.of n := by
  have h : (g.occurrenceInclusion first p.antecedent (n, none)).Holds _ :=
    occurrenceInclusion_holds hp hc
  exact h x (Inclusion.mem_value.2 (.inr ⟨_, List.mem_singleton_self _, hx⟩))

/-- A terminal follows its left neighbour. -/
theorem mem_solveFollow_of_terminal
    (hc : p.consequent = before ++ .nonTerminal n :: .terminal x :: behind) :
    x ∈ (g.solveFollow first).1.of n := by
  have h : (g.occurrenceInclusion first p.antecedent (n, some (.terminal x))).Holds _ :=
    occurrenceInclusion_holds hp hc
  exact h x (Inclusion.mem_value.2 (.inl (List.mem_singleton_self _)))

/-- What a non-terminal begins with follows its left neighbour. -/
theorem mem_solveFollow_of_first
    (hc : p.consequent = before ++ .nonTerminal n :: .nonTerminal m :: behind)
    (hx : x ∈ first.of m) (hne : x ≠ epsilonName) : x ∈ (g.solveFollow first).1.of n := by
  have h : (g.occurrenceInclusion first p.antecedent (n, some (.nonTerminal m))).Holds _ :=
    occurrenceInclusion_holds hp hc
  refine h x (Inclusion.mem_value.2 (.inl ?_))
  exact SymbolSet.mem_difference.2 ⟨hx, by simpa using hne⟩

/-- What follows the antecedent follows the left neighbour of a non-terminal
with an empty production. -/
theorem mem_solveFollow_of_empty
    (hc : p.consequent = before ++ .nonTerminal n :: .nonTerminal m :: behind)
    (he : g.hasEpsilonProduction m = true) (hx : x ∈ (g.solveFollow first).1.of p.antecedent) :
    x ∈ (g.solveFollow first).1.of n := by
  have h : (g.occurrenceInclusion first p.antecedent (n, some (.nonTerminal m))).Holds _ :=
    occurrenceInclusion_holds hp hc
  refine h x (Inclusion.mem_value.2 (.inr ⟨p.antecedent, ?_, hx⟩))
  simp [occurrenceInclusion, he]

end

/-! ### Nothing else follows -/

/-- The name can be followed by `x`: it is the start symbol and `x` the end
marker, or some occurrence of it has a right neighbour, or none, that lets `x`
follow. -/
inductive Follows (g : Grammar) (first : Family) : String → String → Prop where
  | start {s : String} (hs : g.start = some s) : Follows g first s endName
  | last {p : Production} {before : List Symbol} {n x : String} (hp : p ∈ g.productions)
      (hc : p.consequent = before ++ [.nonTerminal n]) (h : Follows g first p.antecedent x) :
      Follows g first n x
  | terminal {p : Production} {before behind : List Symbol} {n x : String}
      (hp : p ∈ g.productions)
      (hc : p.consequent = before ++ .nonTerminal n :: .terminal x :: behind) :
      Follows g first n x
  | first {p : Production} {before behind : List Symbol} {n m x : String}
      (hp : p ∈ g.productions)
      (hc : p.consequent = before ++ .nonTerminal n :: .nonTerminal m :: behind)
      (hx : x ∈ first.of m) (hne : x ≠ epsilonName) : Follows g first n x
  | empty {p : Production} {before behind : List Symbol} {n m x : String}
      (hp : p ∈ g.productions)
      (hc : p.consequent = before ++ .nonTerminal n :: .nonTerminal m :: behind)
      (he : g.hasEpsilonProduction m = true) (h : Follows g first p.antecedent x) :
      Follows g first n x

theorem exists_of_mem_neighbours {ss : List Symbol} {n : String} {o : Option Symbol}
    (h : (n, o) ∈ neighbours ss) :
    ∃ before behind, ss = before ++ .nonTerminal n :: behind ∧ o = behind.head? := by
  -- An occurrence further on has one more symbol before it.
  have hcons : ∀ (s : Symbol) (ss : List Symbol),
      (∃ before behind, ss = before ++ .nonTerminal n :: behind ∧ o = behind.head?) →
        ∃ before behind, s :: ss = before ++ .nonTerminal n :: behind ∧ o = behind.head? := by
    rintro s _ ⟨before, behind, rfl, ho⟩
    exact ⟨s :: before, behind, rfl, ho⟩
  induction ss with
  | nil => cases h
  | cons s ss ih =>
    cases s with
    | nonTerminal m =>
      rcases List.mem_cons.1 h with he | h
      · obtain ⟨rfl, rfl⟩ := Prod.mk.inj he
        exact ⟨[], ss, rfl, rfl⟩
      · exact hcons _ _ (ih h)
    | terminal m => exact hcons _ _ (ih h)
    | epsilon => exact hcons _ _ (ih h)
    | endMarker => exact hcons _ _ (ih h)

theorem mem_seededFollow_iff {n x : String} :
    x ∈ (g.seededFollow first).of n ↔ g.start = some n ∧ x = endName := by
  rw [seededFollow, Family.of_declareAll]
  have hlisted : ∀ m, (Family.declareAll g.nonTerminals []).of m = [] := fun m =>
    Family.of_declareAll _ _ _
  cases hs : g.start with
  | none => simp [hlisted]
  | some s =>
    dsimp only
    by_cases hn : n = s
    · subst hn
      simp [hlisted]
    · rw [Family.of_add_of_ne hn, Family.of_declare, hlisted]
      simp [Ne.symm hn]

/-- An inclusion between FOLLOW sets stands for an occurrence. -/
theorem exists_of_mem_followInclusions {c : Inclusion} (h : c ∈ g.followInclusions first) :
    ∃ p ∈ g.productions, ∃ before n behind,
      p.consequent = before ++ .nonTerminal n :: behind ∧
      c = g.occurrenceInclusion first p.antecedent (n, behind.head?) := by
  obtain ⟨p, hp, hc⟩ := List.mem_flatMap.1 h
  obtain ⟨⟨n, o⟩, ho, rfl⟩ := List.mem_map.1 hc
  obtain ⟨before, behind, hconsequent, rfl⟩ := exists_of_mem_neighbours ho
  exact ⟨p, hp, before, n, behind, hconsequent, rfl⟩

/-- **The FOLLOW set of a name holds exactly what can follow it.** -/
theorem mem_solveFollow_iff {n x : String} :
    x ∈ (g.solveFollow first).1.of n ↔ g.Follows first n x := by
  constructor
  · refine solve_induction (P := g.Follows first) ?_ ?_ ?_ n x
    · intro c hc x hx
      obtain ⟨p, hp, before, n, behind, hconsequent, rfl⟩ := exists_of_mem_followInclusions hc
      -- What is added at once comes from a right neighbour.
      cases behind with
      | nil => cases hx
      | cons s behind =>
        cases s with
        | terminal t =>
          obtain rfl := List.mem_singleton.1 hx
          exact .terminal hp hconsequent
        | nonTerminal m =>
          obtain ⟨hx, hne⟩ := SymbolSet.mem_difference.1 hx
          exact .first hp hconsequent hx (by simpa using hne)
        | epsilon => cases hx
        | endMarker => cases hx
    · intro c hc m hm x hx
      obtain ⟨p, hp, before, n, behind, hconsequent, rfl⟩ := exists_of_mem_followInclusions hc
      cases behind with
      | nil =>
        obtain rfl := List.mem_singleton.1 hm
        exact .last hp hconsequent hx
      | cons s behind =>
        cases s with
        | terminal t => cases hm
        | nonTerminal k =>
          simp only [List.head?_cons, occurrenceInclusion] at hm ⊢
          split at hm
          · next he =>
            obtain rfl := List.mem_singleton.1 hm
            exact .empty hp hconsequent he hx
          · cases hm
        | epsilon => cases hm
        | endMarker => cases hm
    · intro m x hx
      obtain ⟨hs, rfl⟩ := mem_seededFollow_iff.1 hx
      exact .start hs
  · intro h
    induction h with
    | start hs => exact endName_mem_solveFollow hs
    | last hp hc _ ih => exact mem_solveFollow_of_last hp hc ih
    | terminal hp hc => exact mem_solveFollow_of_terminal hp hc
    | first hp hc hx hne => exact mem_solveFollow_of_first hp hc hx hne
    | empty hp hc he _ ih => exact mem_solveFollow_of_empty hp hc he ih

end Grammar

end PredictiveParsing
