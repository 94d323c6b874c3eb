import PredictiveParsing.Proofs.Grammar.Reachable
import PredictiveParsing.Proofs.Sets.Follow

/-
The sets a grammar remembers are those of its productions.

A replacement of the vocabulary that fails half way leaves old tags and old
sets behind.  Even then the sets go with the productions as they are tagged:
FIRST and FOLLOW only ask for tags, and nothing changes these without
forgetting the sets.

* `begins_congr`, `follows_congr` — the sets do not depend on the order of the
  productions, nor on the vocabulary;
* `Grammar.Recalls` — what is remembered has the right members;
* `Grammar.SetsAfter`, `setsAfter_apply` — what operations do to the sets;
* `Reachable.recalls` — that is so of every grammar operations can make;
* `mem_knownSets_fst_iff`, `mem_knownSets_snd_iff` — the members of the sets
  that a table is built from.
-/
namespace PredictiveParsing

namespace Grammar

variable {g h : Grammar}

/-! ### Only the productions count -/

theorem Begins.mono (hps : ∀ p ∈ g.productions, p ∈ h.productions) {n x : String}
    (hb : g.Begins n x) : h.Begins n x := by
  induction hb with
  | direct hp hf => exact .direct (hps _ hp) hf
  | through hp hf _ ih => exact .through (hps _ hp) hf ih

theorem begins_congr (hps : ∀ p, p ∈ g.productions ↔ p ∈ h.productions) {n x : String} :
    g.Begins n x ↔ h.Begins n x :=
  ⟨.mono fun p => (hps p).1, .mono fun p => (hps p).2⟩

theorem hasEpsilonProduction_mono (hps : ∀ p ∈ g.productions, p ∈ h.productions) {n : String}
    (he : g.hasEpsilonProduction n = true) : h.hasEpsilonProduction n = true := by
  obtain ⟨p, hp, hn⟩ := List.any_eq_true.1 he
  exact List.any_eq_true.2 ⟨p, hps p hp, hn⟩

theorem Follows.mono {first first' : Family} (hps : ∀ p ∈ g.productions, p ∈ h.productions)
    (hs : h.start = g.start) (hfirst : ∀ n x, x ∈ first.of n → x ∈ first'.of n) {n x : String}
    (hf : g.Follows first n x) : h.Follows first' n x := by
  induction hf with
  | start hn => exact .start (hs.trans hn)
  | last hp hc _ ih => exact .last (hps _ hp) hc ih
  | terminal hp hc => exact .terminal (hps _ hp) hc
  | first hp hc hx hne => exact .first (hps _ hp) hc (hfirst _ _ hx) hne
  | empty hp hc he _ ih => exact .empty (hps _ hp) hc (hasEpsilonProduction_mono hps he) ih

theorem follows_congr {first first' : Family} (hps : ∀ p, p ∈ g.productions ↔ p ∈ h.productions)
    (hs : g.start = h.start) (hfirst : ∀ n x, x ∈ first.of n ↔ x ∈ first'.of n) {n x : String} :
    g.Follows first n x ↔ h.Follows first' n x :=
  ⟨.mono (fun p => (hps p).1) hs.symm fun n x => (hfirst n x).1,
    .mono (fun p => (hps p).2) hs fun n x => (hfirst n x).2⟩

/-! ### What is remembered -/

/-- The sets that are remembered have the members that the productions give. -/
structure Recalls (g : Grammar) : Prop where
  first_iff : ∀ f, g.first = some f → ∀ n x, x ∈ f.of n ↔ g.Begins n x
  follow_iff : ∀ f, g.follow = some f → ∀ n x, x ∈ f.of n ↔ g.Follows g.solveFirst.1 n x

theorem Recalls.of_forgotten (h₁ : g.first = none) (h₂ : g.follow = none) : g.Recalls :=
  ⟨by simp [h₁], by simp [h₂]⟩

theorem mem_solveFirst_congr (hps : ∀ p, p ∈ g.productions ↔ p ∈ h.productions) {n x : String} :
    x ∈ g.solveFirst.1.of n ↔ x ∈ h.solveFirst.1.of n := by
  rw [mem_solveFirst_iff, mem_solveFirst_iff]
  exact begins_congr hps

/-- Whatever else changes, the sets go with the productions and the start. -/
theorem Recalls.congr (hg : g.Recalls) (hps : h.productions = g.productions)
    (hs : h.start = g.start) (h₁ : h.first = g.first) (h₂ : h.follow = g.follow) : h.Recalls := by
  have hmem : ∀ p, p ∈ g.productions ↔ p ∈ h.productions := fun p => by rw [hps]
  constructor
  · intro f hf n x
    rw [hg.first_iff f (h₁ ▸ hf) n x]
    exact begins_congr hmem
  · intro f hf n x
    rw [hg.follow_iff f (h₂ ▸ hf) n x]
    exact follows_congr hmem hs.symm fun n x => mem_solveFirst_congr hmem

theorem Recalls.mem_knownFirst_iff (hg : g.Recalls) {n x : String} :
    x ∈ g.knownFirst.1.of n ↔ g.Begins n x := by
  rw [knownFirst]
  split
  · next f hf => exact hg.first_iff f hf n x
  · exact mem_solveFirst_iff

/-- FOLLOW sets computed from FIRST sets with the right members. -/
theorem Recalls.mem_solveFollow_knownFirst_iff (hg : g.Recalls) {n x : String} :
    x ∈ (g.solveFollow g.knownFirst.1).1.of n ↔ g.Follows g.solveFirst.1 n x := by
  rw [mem_solveFollow_iff]
  refine follows_congr (fun _ => Iff.rfl) rfl fun n x => ?_
  rw [hg.mem_knownFirst_iff, mem_solveFirst_iff]

/-- **The FIRST sets behind a table hold what the names can begin with.** -/
theorem Recalls.mem_knownSets_fst_iff (hg : g.Recalls) {n x : String} :
    x ∈ g.knownSets.1.of n ↔ g.Begins n x := by
  rw [knownSets_eq]
  exact hg.mem_knownFirst_iff

/-- **The FOLLOW sets behind a table hold what can follow the names.** -/
theorem Recalls.mem_knownSets_snd_iff (hg : g.Recalls) {n x : String} :
    x ∈ g.knownSets.2.1.of n ↔ g.Follows g.solveFirst.1 n x := by
  rw [knownSets, knownFirst_eq]
  dsimp only
  cases hf : g.follow with
  | some f => exact hg.follow_iff f hf n x
  | none => exact hg.mem_solveFollow_knownFirst_iff

/-- Noting sets with the right members. -/
theorem recalls_note {first follow : Option Family}
    (h₁ : ∀ f, first = some f → ∀ n x, x ∈ f.of n ↔ g.Begins n x)
    (h₂ : ∀ f, follow = some f → ∀ n x, x ∈ f.of n ↔ g.Follows g.solveFirst.1 n x) :
    Recalls { g with first, follow } := by
  have hmem : ∀ p, p ∈ g.productions ↔ p ∈ ({ g with first, follow } : Grammar).productions :=
    fun _ => Iff.rfl
  constructor
  · intro f hf n x
    rw [h₁ f hf n x]
    exact begins_congr hmem
  · intro f hf n x
    rw [h₂ f hf n x]
    exact follows_congr hmem rfl fun n x => mem_solveFirst_congr hmem

/-! ### What operations do to the sets -/

/-- The sets of a grammar after an operation: forgotten, or kept with the
productions and the start symbol, or known and noted. -/
inductive SetsAfter (g : Grammar) : Grammar → Prop where
  | forgotten {h : Grammar} (h₁ : h.first = none) (h₂ : h.follow = none) : SetsAfter g h
  | kept {h : Grammar} (hps : h.productions = g.productions) (hs : h.start = g.start)
      (h₁ : h.first = g.first) (h₂ : h.follow = g.follow) : SetsAfter g h
  | noted {first follow : Option Family} (h₁ : first = g.first ∨ first = some g.solveFirst.1)
      (h₂ : follow = g.follow ∨ follow = some (g.solveFollow g.knownFirst.1).1) :
      SetsAfter g { g with first, follow }

theorem SetsAfter.refl (g : Grammar) : g.SetsAfter g :=
  .kept rfl rfl rfl rfl

/-- What is adopted has no sets yet; what is not leaves the grammar alone. -/
theorem SetsAfter.adopt (hn : h.Named) (hs : g.SetsAfter h) (names introduced : List String)
    (sides : List Sides) : g.SetsAfter (adopt names introduced sides h).2 := by
  rcases adopt_cases hn names introduced sides with ⟨_, he⟩ | ⟨_, g', -, he, -, -, -, -, h₁, h₂⟩
  · rw [he]
    exact hs
  · rw [he]
    exact .forgotten h₁ h₂

/-- **An operation forgets the sets, keeps them, or notes those of the
productions.** -/
theorem setsAfter_apply (hn : g.Named) (o : Operation) : g.SetsAfter (o.apply g) := by
  have hadopt : ∀ names introduced sides (h : Grammar), h.Named ∧ g.SetsAfter h →
      (Grammar.adopt names introduced sides h).2.Named ∧
        g.SetsAfter (Grammar.adopt names introduced sides h).2 :=
    fun names introduced sides h hh =>
      ⟨hh.1.adopt names introduced sides, hh.2.adopt hh.1 names introduced sides⟩
  by_cases hcomputes : o.computes = true
  · obtain ⟨_, _, he, h₁, h₂⟩ := g.apply_of_computes hcomputes
    rw [he]
    exact .noted h₁ h₂
  cases o with
  | setVocabulary nonTerminals terminals =>
    -- A failure changes neither the productions nor the sets.
    rcases setVocabulary_cases nonTerminals terminals g with
      ⟨_, he⟩ | ⟨_, _, -, he⟩ | ⟨_, _, -, -, he⟩
    · rw [Operation.apply, he]
      exact .refl g
    · rw [Operation.apply, he]
      exact .kept rfl rfl rfl rfl
    · rw [Operation.apply, he]
      exact .forgotten rfl rfl
  | setProductions items =>
    rcases setProductions_cases items g with ⟨_, he⟩ | ⟨_, -, he⟩
    · rw [Operation.apply, he]
      exact .refl g
    · rw [Operation.apply, he]
      exact .forgotten rfl rfl
  | setStart start => exact .forgotten rfl rfl
  | validate => exact .kept rfl rfl rfl rfl
  | eliminateLeftRecursion policy =>
    exact (eliminateLeftRecursion_induction hadopt policy ⟨hn, .refl g⟩).2
  | leftFactor policy => exact (leftFactor_induction hadopt policy ⟨hn, .refl g⟩).2
  | normalize policy =>
    simp only [Operation.apply]
    split
    · next n he =>
      exact (normalize_induction hadopt (fun h => ⟨⟨h.1.nonTerminals, h.1.terminals⟩,
        .forgotten rfl rfl⟩) he ⟨hn, .refl g⟩).2
    · exact .refl g
  | copy => exact .forgotten rfl rfl
  | computeFirst | computeFollow | logFirst | logFollow | knownSets | buildTable =>
    exact absurd rfl hcomputes

theorem Recalls.setsAfter (hg : g.Recalls) (hs : g.SetsAfter h) : h.Recalls := by
  cases hs with
  | forgotten h₁ h₂ => exact .of_forgotten h₁ h₂
  | kept hps hs h₁ h₂ => exact hg.congr hps hs h₁ h₂
  | noted h₁ h₂ =>
    refine recalls_note ?_ ?_
    · intro f hf n x
      rcases h₁ with h₁ | h₁
      · exact hg.first_iff f (h₁ ▸ hf) n x
      · obtain rfl := Option.some.inj (h₁.symm.trans hf)
        exact mem_solveFirst_iff
    · intro f hf n x
      rcases h₂ with h₂ | h₂
      · exact hg.follow_iff f (h₂ ▸ hf) n x
      · obtain rfl := Option.some.inj (h₂.symm.trans hf)
        exact hg.mem_solveFollow_knownFirst_iff

/-- **What a reachable grammar remembers has the right members**, whatever
became of its vocabulary. -/
theorem Reachable.recalls (hg : g.Reachable) : g.Recalls := by
  induction hg with
  | @build name description nonTerminals terminals items start _ h =>
    obtain ⟨g₁, g₂, -, -, rfl⟩ := build_cases h
    exact .of_forgotten rfl rfl
  | apply o _ hg ih => exact ih.setsAfter (setsAfter_apply (Reachable.named hg) o)

end Grammar

end PredictiveParsing
