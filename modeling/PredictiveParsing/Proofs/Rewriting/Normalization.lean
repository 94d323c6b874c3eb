import PredictiveParsing.Proofs.Rewriting.LeftFactoring

/-
Normalization keeps the language of every non-terminal.

* `yields_congr` — grammars with the same rules yield the same;
* `yields_withEmptyBases_copy_iff` — copying does not matter;
* `normalize_cases` — the two rewritings behind a normalization;
* `normalize_generates_iff` — a normalized grammar generates what the grammar
  with empty bases does.

Design notes:

* Nothing depends on the collision policy: a policy decides whether there is a
  result, and under which new names.
-/
namespace PredictiveParsing

namespace Grammar

variable {g h : Grammar}

/-! ### The copy -/

/-- What a grammar yields is decided by its non-terminals and its rules. -/
theorem yields_congr (hnts : ∀ a, a ∈ g.nonTerminals ↔ a ∈ h.nonTerminals)
    (hrule : ∀ a v, g.Rule a v ↔ h.Rule a v) {u w : List String} :
    g.Yields u w ↔ h.Yields u w := by
  constructor
  · intro hy
    refine hy.of_rules (D := fun _ => True) (fun a _ ha => (hnts a).not.1 ha) (by simp) ?_ (by simp)
    exact fun a v x hr hx => yields_of_rule ((hrule a v).1 hr) hx
  · intro hy
    refine hy.of_rules (D := fun _ => True) (fun a _ ha => (hnts a).not.2 ha) (by simp) ?_ (by simp)
    exact fun a v x hr hx => yields_of_rule ((hrule a v).2 hr) hx

theorem bareAntecedents_copy (g : Grammar) : g.copy.bareAntecedents = g.bareAntecedents := by
  have hantecedent : Production.antecedent ∘ Production.retag g.nonTerminals =
      Production.antecedent := by
    funext p
    exact Production.antecedent_retag _ p
  have hproductions : ∀ a, g.copy.productionsOf a =
      (g.productionsOf a).map (Production.retag g.nonTerminals) := by
    intro a
    rw [productionsOf, productionsOf, copy, retagged, List.filter_map]
    refine congrArg _ (List.filter_congr fun p _ => ?_)
    simp
  rw [bareAntecedents, bareAntecedents]
  refine congrArg₂ List.filter ?_ ?_
  · funext a
    rw [hproductions, List.all_map]
    simp [Function.comp_def]
  · rw [copy, retagged, List.map_map, hantecedent]

/-- Copying tags a grammar anew, and tags do not matter to what it yields. -/
theorem yields_withEmptyBases_copy_iff {u w : List String} :
    g.copy.withEmptyBases.Yields u w ↔ g.withEmptyBases.Yields u w := by
  refine yields_congr (g := g.copy.withEmptyBases) (h := g.withEmptyBases) (fun _ => Iff.rfl)
    fun a v => ?_
  rw [rule_withEmptyBases_iff, rule_withEmptyBases_iff, rule_copy_iff, bareAntecedents_copy]

/-! ### The operation -/

/-- What stands behind a normalization: both rewritings of a copy went well, and
the result is the grammar itself if neither found anything to do. -/
theorem normalize_cases {policy : CollisionPolicy} {n : Normalization}
    (he : g.normalize policy = .ok n) : ∃ removed factored work done,
      g.copy.eliminateLeftRecursion policy = (.ok removed, work) ∧
      work.factorFully policy = (.ok factored, done) ∧
      (n = ⟨done, removed, factored⟩ ∨
        removed = false ∧ factored = false ∧ n = ⟨g, false, false⟩) := by
  rw [normalize] at he
  split at he
  · cases he
  · next removed work hr =>
    split at he
    · cases he
    · next factored done hf =>
      refine ⟨removed, factored, work, done, hr, hf, ?_⟩
      split at he
      · exact .inl (Except.ok.inj he).symm
      · next hnone =>
        obtain ⟨hremoved, hfactored⟩ : removed = false ∧ factored = false := by simpa using hnone
        exact .inr ⟨hremoved, hfactored, (Except.ok.inj he).symm⟩

theorem normalize_yields_iff (hg : g.copy.Closed) {policy : CollisionPolicy} {n : Normalization}
    (he : g.normalize policy = .ok n) :
    (∀ a ∈ g.nonTerminals, a ∈ n.grammar.nonTerminals) ∧
      ∀ a ∈ g.nonTerminals, ∀ w, n.grammar.Yields [a] w ↔ g.withEmptyBases.Yields [a] w := by
  obtain ⟨removed, factored, work, done, hr, hf, rfl | ⟨rfl, -, rfl⟩⟩ := normalize_cases he
  · obtain ⟨hwork, hkept, hyields⟩ := eliminateLeftRecursion_spec hg hr
    obtain ⟨-, hkept', hyields'⟩ := factorRounds_spec hwork hf
    refine ⟨fun a ha => hkept' a (hkept a ha), fun a ha w => ?_⟩
    rw [hyields' a (hkept a ha), hyields a ha, yields_withEmptyBases_copy_iff]
  · have hbare := bareAntecedents_eq_nil (leftRecursive_eq_nil_of_kept hr).1
    rw [bareAntecedents_copy] at hbare
    rw [withEmptyBases_eq_self hbare]
    exact ⟨fun _ ha => ha, fun _ _ _ => Iff.rfl⟩

/-- **Normalization keeps the language of every non-terminal.**  The words it
generates in the result are those it generates once each antecedent all of
whose productions begin with itself has an empty production; if there is no
such antecedent, they are those it generates in the grammar as it is. -/
theorem normalize_generates_iff (hg : g.Reachable) (hvalid : Diagnostic.hasErrors g.problems = false)
    {policy : CollisionPolicy} {n : Normalization} (he : g.normalize policy = .ok n) :
    (∀ a ∈ g.nonTerminals, a ∈ n.grammar.nonTerminals) ∧
    (∀ a ∈ g.nonTerminals, ∀ w, n.grammar.Generates a w ↔ g.withEmptyBases.Generates a w) ∧
    ((∀ p ∈ g.productions, ∃ q ∈ g.productions,
        q.antecedent = p.antecedent ∧ q.first.name ≠ q.antecedent) →
      ∀ a ∈ g.nonTerminals, ∀ w, n.grammar.Generates a w ↔ g.Generates a w) := by
  obtain ⟨hkept, hyields⟩ := normalize_yields_iff (closed_copy hg.named (wellFormed_iff.1 hvalid)) he
  refine ⟨hkept, fun a ha w => ?_, fun hbase a ha w => ?_⟩
  · rw [generates_iff, generates_iff]
    exact hyields a ha w
  · have hbare : g.bareAntecedents = [] := by
      rw [List.eq_nil_iff_forall_not_mem]
      intro b hb
      obtain ⟨⟨p, hp, rfl⟩, hall⟩ := mem_bareAntecedents_iff.1 hb
      obtain ⟨q, hq, hqp, hne⟩ := hbase p hp
      exact hne ((hall q hq hqp).trans hqp.symm)
    rw [generates_iff, generates_iff, hyields a ha w, withEmptyBases_eq_self hbare]

/-- Sums in which a group has to be factored and a name has no base. -/
theorem normalize_generates_iff_sums :
    let items : List ProductionItem := [.sides ⟨"E", ["E", "+", "T"]⟩, .sides ⟨"E", ["T"]⟩,
      .sides ⟨"T", ["x", "L"]⟩, .sides ⟨"T", ["x"]⟩, .sides ⟨"L", ["L", "y"]⟩]
    let g : Grammar :=
      { nonTerminals := ["E", "T", "L"], terminals := ["+", "x", "y"], start := some "E"
        productions := [⟨"E", .nonTerminal "E", [.terminal "+", .nonTerminal "T"]⟩,
          ⟨"E", .nonTerminal "T", []⟩, ⟨"T", .terminal "x", [.nonTerminal "L"]⟩,
          ⟨"T", .terminal "x", []⟩, ⟨"L", .nonTerminal "L", [.terminal "y"]⟩] }
    let r : Grammar :=
      { nonTerminals := ["E", "E'", "T", "T'", "L", "L'"], terminals := ["+", "x", "y"]
        start := some "E", introduced := ["E'", "L'", "T'"]
        productions := [⟨"E'", .terminal "+", [.nonTerminal "T", .nonTerminal "E'"]⟩,
          ⟨"E", .nonTerminal "T", [.nonTerminal "E'"]⟩, ⟨"E'", .epsilon, []⟩,
          ⟨"T", .terminal "x", [.nonTerminal "T'"]⟩, ⟨"T'", .nonTerminal "L", []⟩,
          ⟨"T'", .epsilon, []⟩, ⟨"L'", .terminal "y", [.nonTerminal "L'"]⟩,
          ⟨"L", .nonTerminal "L'", []⟩, ⟨"L'", .epsilon, []⟩] }
    build "" "" ["E", "T", "L"] ["+", "x", "y"] items (some "E") = .ok g ∧
      g.normalize .refuse = .ok ⟨r, true, true⟩ ∧
      (∀ w, r.Generates "E" w ↔ g.withEmptyBases.Generates "E" w) ∧ g.bareAntecedents = ["L"] := by
  intro items g r
  have hbuild : build "" "" ["E", "T", "L"] ["+", "x", "y"] items (some "E") = .ok g := rfl
  have hvalid : Diagnostic.hasErrors g.problems = false := by decide +kernel
  have hnormalize : g.normalize .refuse = .ok ⟨r, true, true⟩ := by decide +kernel
  refine ⟨hbuild, hnormalize, ?_, by decide +kernel⟩
  exact (normalize_generates_iff (.build hbuild) hvalid hnormalize).2.1 "E" (by simp [g])

end Grammar

end PredictiveParsing
