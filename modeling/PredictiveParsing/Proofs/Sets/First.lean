import PredictiveParsing.First
import PredictiveParsing.Proofs.Grammar.Vocabulary
import PredictiveParsing.Proofs.Sets.Least

/-
What the FIRST sets hold.

* `Grammar.Begins` — a chain of first symbols leads from a name to a symbol
  that is no non-terminal;
* `mem_solveFirst_iff` — the FIRST set of a name holds exactly what it can
  begin with;
* `begins_iff_exists` — and that is what one of its productions can begin
  with.
-/
namespace PredictiveParsing

@[simp] theorem Family.of_declareAll (ns : List String) (f : Family) (n : String) :
    (Family.declareAll ns f).of n = f.of n := by
  induction ns generalizing f with
  | nil => rfl
  | cons m ns ih =>
    rw [Family.declareAll, List.foldl_cons]
    exact (ih _).trans (Family.of_declare _ _ _)

namespace Grammar

/-- The name can begin with `x`: a production of it begins with `x`, which is
no non-terminal, or with a non-terminal that can begin with `x`. -/
inductive Begins (g : Grammar) : String → String → Prop where
  | direct {p : Production} (hp : p ∈ g.productions) (hf : p.first.isNonTerminal = false) :
      Begins g p.antecedent p.first.name
  | through {p : Production} {n x : String} (hp : p ∈ g.productions)
      (hf : p.first = .nonTerminal n) (h : Begins g n x) : Begins g p.antecedent x

variable {g : Grammar}

/-! ### The system of inclusions -/

theorem mem_foldl_seeds (ps : List Production) (f : Family) (n x : String) :
    x ∈ (ps.foldl (fun f p => f.add p.antecedent [p.first.name]) f).of n ↔
      x ∈ f.of n ∨ ∃ p ∈ ps, p.antecedent = n ∧ p.first.name = x := by
  induction ps generalizing f with
  | nil => simp
  | cons p ps ih =>
    rw [List.foldl_cons, ih]
    by_cases hn : n = p.antecedent
    · subst hn
      simp only [Family.of_add_self, SymbolSet.mem_union, List.mem_singleton, List.exists_mem_cons_iff,
        true_and, or_assoc, eq_comm]
    · have hn' : ¬ p.antecedent = n := fun h => hn h.symm
      simp [Family.of_add_of_ne hn, hn']

theorem mem_seededFirst_iff {n x : String} :
    x ∈ g.seededFirst.of n ↔ ∃ p ∈ g.productions,
      p.first.isNonTerminal = false ∧ p.antecedent = n ∧ p.first.name = x := by
  have hlisted : (Family.declareAll g.firstNames []).of n = [] := Family.of_declareAll _ _ _
  rw [seededFirst, mem_foldl_seeds, hlisted]
  simp [seeds, and_assoc]

theorem mem_firstInclusions_iff {c : Inclusion} :
    c ∈ g.firstInclusions ↔
      ∃ p ∈ g.productions, ∃ n, p.first = .nonTerminal n ∧ c = ⟨p.antecedent, [], [n]⟩ := by
  have hedges : ∀ e : String × String,
      e ∈ (g.productions.filterMap fun p =>
        if p.first.isNonTerminal then some (p.antecedent, p.first.name) else none) ↔
      ∃ p ∈ g.productions, ∃ n, p.first = .nonTerminal n ∧ e = (p.antecedent, n) := by
    intro e
    rw [List.mem_filterMap]
    refine exists_congr fun p => and_congr_right fun _ => ?_
    cases p.first <;> simp [Symbol.isNonTerminal, Symbol.name, eq_comm]
  rw [firstInclusions]
  simp only [List.mem_flatMap, List.mem_eraseDups, List.mem_map, List.mem_filter, beq_iff_eq, hedges]
  constructor
  · rintro ⟨a, -, e, ⟨⟨p, hp, n, hf, rfl⟩, rfl⟩, rfl⟩
    exact ⟨p, hp, n, hf, rfl⟩
  · rintro ⟨p, hp, n, hf, rfl⟩
    exact ⟨p.antecedent, ⟨_, ⟨p, hp, n, hf, rfl⟩, rfl⟩, _, ⟨⟨p, hp, n, hf, rfl⟩, rfl⟩, rfl⟩

/-! ### Its solution -/

/-- **The FIRST set of a name holds exactly what it can begin with.** -/
theorem mem_solveFirst_iff {n x : String} : x ∈ g.solveFirst.1.of n ↔ g.Begins n x := by
  constructor
  · refine solve_induction (P := g.Begins) ?_ ?_ ?_ n x
    · intro c hc x hx
      obtain ⟨p, -, m, -, rfl⟩ := mem_firstInclusions_iff.1 hc
      simp at hx
    · intro c hc m hm x hx
      obtain ⟨p, hp, k, hf, rfl⟩ := mem_firstInclusions_iff.1 hc
      obtain rfl := List.mem_singleton.1 hm
      exact .through hp hf hx
    · intro m x hx
      obtain ⟨p, hp, hf, rfl, rfl⟩ := mem_seededFirst_iff.1 hx
      exact .direct hp hf
  · intro h
    induction h with
    | direct hp hf => exact le_solve _ _ _ _ _ (mem_seededFirst_iff.2 ⟨_, hp, hf, rfl, rfl⟩)
    | through hp hf _ ih =>
      have hholds := holds_solution g.firstInclusions g.seededFirst _
        (mem_firstInclusions_iff.2 ⟨_, hp, _, hf, rfl⟩)
      exact hholds _ (Inclusion.mem_value.2 (.inr ⟨_, List.mem_singleton_self _, ih⟩))

theorem mem_firstSet_iff {first : Family} {p : Production} {x : String} :
    x ∈ p.firstSet first ↔ (p.first.isNonTerminal = false ∧ p.first.name = x) ∨
      ∃ n, p.first = .nonTerminal n ∧ x ∈ first.of n := by
  rw [Production.firstSet]
  cases p.first <;> simp [Symbol.isNonTerminal, eq_comm]

/-- A name begins with what one of its productions begins with. -/
theorem begins_iff_exists {n x : String} :
    g.Begins n x ↔ ∃ p ∈ g.productions, p.antecedent = n ∧ x ∈ p.firstSet g.solveFirst.1 := by
  simp only [mem_firstSet_iff, mem_solveFirst_iff]
  constructor
  · intro h
    cases h with
    | direct hp hf => exact ⟨_, hp, rfl, .inl ⟨hf, rfl⟩⟩
    | through hp hf h => exact ⟨_, hp, rfl, .inr ⟨_, hf, h⟩⟩
  · rintro ⟨p, hp, rfl, ⟨hf, rfl⟩ | ⟨n, hf, h⟩⟩
    · exact .direct hp hf
    · exact .through hp hf h

end Grammar

end PredictiveParsing
