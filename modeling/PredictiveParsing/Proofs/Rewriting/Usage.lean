import Mathlib.Data.List.Induction
import PredictiveParsing.Proofs.Rewriting.Normalization
import PredictiveParsing.Proofs.Rewriting.Result

/-
When the result of a normalization is valid.

All that a rewriting can spoil is the use of a name.  Factoring spoils none.
The removal of left recursion takes away the occurrences of an antecedent in
front of its own productions, and if there are no others the antecedent is no
longer used.

* `Grammar.OccursBeyond` — a name occurs elsewhere than in front of its own
  productions;
* `Closed.wellFormed_iff` — a closed grammar with all its parts is well formed
  if every name is used;
* `Round.usesAll_iff`, `Removal.usesAll_iff` — what the rewritings do to that;
* `normalize_valid_iff` — the grammars whose normalization is valid;
* `exists_normalize_invalid` — one that is valid, unlike its normalization.
-/
namespace PredictiveParsing

/-- What is left without repeats has none. -/
theorem nodup_eraseDups {α : Type} [DecidableEq α] (as : List α) : as.eraseDups.Nodup := by
  induction as using List.reverseRecOn with
  | nil => exact List.nodup_nil
  | append_singleton as a ih =>
    rw [List.eraseDups_append]
    by_cases ha : a ∈ as
    · simpa [List.removeAll, ha] using ih
    · have hnew : ([a].removeAll as).eraseDups = [a] := by
        simp [List.removeAll, ha, List.eraseDups_cons]
      rw [hnew, List.nodup_append]
      refine ⟨ih, List.nodup_singleton a, ?_⟩
      rintro b hb _ hc rfl
      rw [List.mem_singleton] at hc
      exact ha (hc ▸ List.mem_eraseDups.1 hb)

theorem Sides.mem_orEpsilon_iff {ns : List String} {n : String} (hn : n ≠ epsilonName) :
    n ∈ Sides.orEpsilon ns ↔ n ∈ ns := by
  cases ns with
  | nil => simp [Sides.orEpsilon, hn]
  | cons m ms => rfl

theorem Production.mem_yield_iff {p : Production} {n : String} (hn : n ≠ epsilonName) :
    n ∈ p.yield.map Symbol.name ↔ n ∈ p.names := by
  have hyield : n ∈ (p.yield.map Symbol.name).filter (· ≠ epsilonName) ↔ n ∈ p.word := by
    rw [p.filter_yield]
  simpa [Production.word, hn] using hyield

namespace Grammar

/-- The name occurs in a consequent, and not in front of one of its own. -/
def OccursBeyond (g : Grammar) (n : String) : Prop :=
  ∃ p ∈ g.productions, n ∈ p.rest.map Symbol.name ∨ p.first.name = n ∧ p.antecedent ≠ n

/-- Every declared name but the start symbol occurs in a consequent. -/
def UsesAll (g : Grammar) : Prop :=
  (∀ n ∈ g.terminals, n ∈ g.usedNames) ∧
    ∀ n ∈ g.nonTerminals, some n ≠ g.start → n ∈ g.usedNames

/-- There are terminals, and the start symbol is declared. -/
def HasParts (g : Grammar) : Prop :=
  g.terminals ≠ [] ∧ ∃ s, g.start = some s ∧ s ∈ g.nonTerminals

variable {g r : Grammar} {policy : CollisionPolicy} {voc : Extension}

/-! ### Uses -/

theorem mem_usedNames_iff {n : String} : n ∈ g.usedNames ↔ ∃ p ∈ g.productions, n ∈ p.names :=
  List.mem_flatMap

theorem WellFormed.usesAll (hw : g.WellFormed) : g.UsesAll :=
  ⟨hw.terminal_used, hw.nonTerminal_used⟩

theorem WellFormed.hasParts (hw : g.WellFormed) : g.HasParts :=
  ⟨hw.terminals_ne_nil, hw.start_mem⟩

/-- A closed grammar with all its parts is well formed if it uses all names. -/
theorem Closed.wellFormed_iff (hg : g.Closed) (hp : g.HasParts) : g.WellFormed ↔ g.UsesAll := by
  refine ⟨fun hw => hw.usesAll, fun hu => ?_⟩
  obtain ⟨hts, s, hs, hmem⟩ := hp
  refine ⟨?_, hts, List.ne_nil_of_mem hmem, ⟨s, hs, hmem⟩, hg.disjoint, hu.1, hu.2,
    hg.antecedent_mem, hg.symbol_declared⟩
  -- A terminal occurs in some production.
  obtain ⟨t, ts, ht⟩ := List.exists_cons_of_ne_nil hts
  obtain ⟨p, hp, -⟩ := mem_usedNames_iff.1 (hu.1 t (by simp [ht]))
  exact List.ne_nil_of_mem hp

theorem mem_usedNames_of_productions_eq {sides : List Sides}
    (hps : r.productions = sides.map r.tag) {n : String} (hn : n ≠ epsilonName) :
    n ∈ r.usedNames ↔ ∃ s ∈ sides, n ∈ s.names := by
  have hnames : ∀ s : Sides, n ∈ (r.tag s).names ↔ n ∈ s.names := by
    intro s
    rw [names_tag]
    exact Sides.mem_orEpsilon_iff hn
  rw [mem_usedNames_iff, hps]
  constructor
  · rintro ⟨_, hp, hm⟩
    obtain ⟨s, hs, rfl⟩ := List.mem_map.1 hp
    exact ⟨s, hs, (hnames s).1 hm⟩
  · rintro ⟨s, hs, hm⟩
    exact ⟨_, List.mem_map_of_mem hs, (hnames s).2 hm⟩

/-- If a rewriting uses all the names it introduces, only the others count. -/
theorem usesAll_iff_of_sound (hvoc : Extension.Sound g voc) (hg : g.Named)
    (hnts : r.nonTerminals = voc.nonTerminals) (hts : r.terminals = g.terminals)
    (hs : r.start = g.start) (hnew : ∀ n ∈ voc.primes.map (·.2), n ∈ r.usedNames)
    {Used : String → Prop}
    (hold : ∀ n, n ≠ epsilonName → n ∉ voc.primes.map (·.2) → (n ∈ r.usedNames ↔ Used n)) :
    r.UsesAll ↔ (∀ n ∈ g.terminals, Used n) ∧
      ∀ n ∈ g.nonTerminals, some n ≠ g.start → Used n := by
  -- Names that were declared are none of the new ones.
  have hterminal : ∀ n ∈ g.terminals, n ∈ r.usedNames ↔ Used n := by
    intro n hn
    refine hold n (hg.terminals.ne_epsilonName hn) fun hm => ?_
    exact (hvoc.notMem n hm).2 hn
  have hnonTerminal : ∀ n ∈ g.nonTerminals, n ∈ r.usedNames ↔ Used n := by
    intro n hn
    refine hold n (hg.nonTerminals.ne_epsilonName hn) fun hm => ?_
    exact (hvoc.notMem n hm).1 hn
  rw [UsesAll, hnts, hts, hs]
  constructor
  · rintro ⟨h₁, h₂⟩
    exact ⟨fun n hn => (hterminal n hn).1 (h₁ n hn),
      fun n hn hne => (hnonTerminal n hn).1 (h₂ n (hvoc.mem_of_mem hn) hne)⟩
  · rintro ⟨h₁, h₂⟩
    refine ⟨fun n hn => (hterminal n hn).2 (h₁ n hn), fun n hn hne => ?_⟩
    rcases (hvoc.mem_nonTerminals_iff n).1 hn with hn | hn
    · exact (hnonTerminal n hn).2 (h₂ n hn hne)
    · exact hnew n hn

/-- A rewriting keeps the parts of a grammar. -/
theorem HasParts.of_sound (hp : g.HasParts) (hvoc : Extension.Sound g voc)
    (hnts : r.nonTerminals = voc.nonTerminals) (hts : r.terminals = g.terminals)
    (hs : r.start = g.start) : r.HasParts := by
  obtain ⟨ht, s, hstart, hmem⟩ := hp
  refine ⟨hts ▸ ht, s, hs.trans hstart, ?_⟩
  rw [hnts]
  exact hvoc.mem_of_mem hmem

/-! ### Rounds -/

section

variable {names : List ((String × String) × String)} {sides : List Sides}

/-- A name given to a group stands behind its first symbol. -/
theorem Round.mem_usedNames_of_new (hr : g.Round policy r voc names sides) {n : String}
    (hn : n ∈ voc.primes.map (·.2)) : n ∈ r.usedNames := by
  rw [mem_usedNames_of_productions_eq hr.productions_eq (hr.sound.ne_epsilonName hn)]
  rw [hr.names_eq] at hn
  obtain ⟨e, he, rfl⟩ := List.mem_map.1 hn
  obtain ⟨p, hp, hgrouped, hkey⟩ := hr.divides.exists_key e he
  have hmem : (groupKey p, e.2) ∈ names := by rw [hkey]; exact he
  exact ⟨_, hr.mem_sides_iff.2 (.head hp hgrouped hmem), by simp⟩

/-- A round uses the names that were used. -/
theorem Round.mem_usedNames_iff (hr : g.Round policy r voc names sides) {n : String}
    (hε : n ≠ epsilonName) (hn : n ∉ voc.primes.map (·.2)) :
    n ∈ r.usedNames ↔ n ∈ g.usedNames := by
  rw [mem_usedNames_of_productions_eq hr.productions_eq hε, Grammar.mem_usedNames_iff]
  constructor
  · rintro ⟨s, hs, hm⟩
    cases hr.mem_sides_iff.1 hs with
    | @kept p hp => exact ⟨p, hp, hm⟩
    | @head p k hp _ hk =>
      rcases List.mem_cons.1 hm with rfl | hm
      · exact ⟨p, hp, List.mem_cons_self⟩
      · obtain rfl := List.mem_singleton.1 hm
        exact absurd (hr.mem_primes hk) hn
    | @rest p k hp =>
      exact ⟨p, hp, List.mem_cons_of_mem _ ((Sides.mem_orEpsilon_iff hε).1 hm)⟩
  · rintro ⟨p, hp, hm⟩
    cases hgrouped : g.isGrouped p with
    | false => exact ⟨p.sides, hr.mem_sides_iff.2 (.kept hp hgrouped), hm⟩
    | true =>
      obtain ⟨k, hk⟩ := (hr.divides.exists_name p hp hgrouped).resolve_left (by simp)
      -- The first name stays with the antecedent, the others go to the new name.
      rcases List.mem_cons.1 hm with rfl | hm
      · exact ⟨_, hr.mem_sides_iff.2 (.head hp hgrouped hk), by simp⟩
      · exact ⟨_, hr.mem_sides_iff.2 (.rest hp hgrouped hk), (Sides.mem_orEpsilon_iff hε).2 hm⟩

/-- **A round leaves as much unused as there was.** -/
theorem Round.usesAll_iff (hr : g.Round policy r voc names sides) (hg : g.Closed) :
    r.UsesAll ↔ g.UsesAll :=
  usesAll_iff_of_sound hr.sound hg.named hr.nonTerminals_eq hr.terminals_eq hr.start_eq
    (fun _ hn => hr.mem_usedNames_of_new hn) fun _ hε hn => hr.mem_usedNames_iff hε hn

end

/-! ### Removals -/

theorem Removal.nodup_keys (hr : g.Removal r voc) : (OrderedMap.keys voc.primes).Nodup := by
  rw [hr.keys_eq]
  exact nodup_eraseDups _

/-- A new name is the one that an antecedent was given: each is named once. -/
theorem Removal.exists_of_mem_primes (hr : g.Removal r voc) {a m : String}
    (he : (a, m) ∈ voc.primes) :
    ∃ p ∈ g.productions, p.antecedent = a ∧ OrderedMap.get? p.antecedent voc.primes = some m := by
  have ha : a ∈ g.leftRecursive := by
    rw [← hr.keys_eq]
    exact List.mem_map_of_mem he
  obtain ⟨p, hp, -, rfl⟩ := mem_leftRecursive_iff.1 ha
  exact ⟨p, hp, rfl, OrderedMap.get?_of_mem hr.nodup_keys he⟩

/-- A new name stands behind a base of its antecedent, or alone if that has
none. -/
theorem Removal.mem_usedNames_of_new (hr : g.Removal r voc) {n : String}
    (hn : n ∈ voc.primes.map (·.2)) : n ∈ r.usedNames := by
  rw [mem_usedNames_of_productions_eq hr.productions_eq (hr.sound.ne_epsilonName hn)]
  obtain ⟨⟨a, m⟩, he, rfl⟩ := List.mem_map.1 hn
  obtain ⟨p, hp, rfl, hm⟩ := hr.exists_of_mem_primes he
  cases hb : g.hasBase p.antecedent with
  | false => exact ⟨_, hr.mem_sides_iff.2 (.bare hp hm hb), by simp⟩
  | true =>
    obtain ⟨q, hq, hne⟩ := List.any_eq_true.1 hb
    obtain ⟨hq, hqa⟩ := List.mem_filter.1 hq
    have hqa : q.antecedent = p.antecedent := by simpa using hqa
    have hl : q.isLeftRecursive = false := by simpa [Production.isLeftRecursive, hqa] using hne
    exact ⟨_, hr.mem_sides_iff.2 (.base hq (hqa ▸ hm) hl), by simp [Production.basePart]⟩

/-- **Removing left recursion uses the names that occur beyond their own
productions.** -/
theorem Removal.mem_usedNames_iff (hr : g.Removal r voc) {n : String}
    (hε : n ≠ epsilonName) (hn : n ∉ voc.primes.map (·.2)) :
    n ∈ r.usedNames ↔ g.OccursBeyond n := by
  rw [mem_usedNames_of_productions_eq hr.productions_eq hε]
  have hbeyond : ∀ p ∈ g.productions, p.isLeftRecursive = false → n ∈ p.names →
      g.OccursBeyond n := by
    intro p hp hl hm
    rcases List.mem_cons.1 hm with rfl | hm
    · exact ⟨p, hp, .inr ⟨rfl, fun he => by simp [Production.isLeftRecursive, he] at hl⟩⟩
    · exact ⟨p, hp, .inl hm⟩
  have hnew : ∀ {a m}, OrderedMap.get? a voc.primes = some m → n ≠ m :=
    fun hm he => hn (he ▸ mem_of_get?_primes hm)
  constructor
  · rintro ⟨s, hs, hm⟩
    cases hr.mem_sides_iff.1 hs with
    | @kept p hp _ hl => exact hbeyond p hp hl hm
    | @tail p m hp hget => exact ⟨p, hp, .inl (by simpa [hnew hget] using hm)⟩
    | @base p m hp hget hl =>
      refine hbeyond p hp hl ((Production.mem_yield_iff hε).1 ?_)
      simpa [Production.basePart, hnew hget] using hm
    | @bare p m hp hget => exact absurd (List.mem_singleton.1 hm) (hnew hget)
    | @close p m hp => exact absurd (List.mem_singleton.1 hm) hε
  · rintro ⟨p, hp, hm⟩
    have hnames : n ∈ p.names := by
      rcases hm with hm | ⟨rfl, -⟩
      · exact List.mem_cons_of_mem _ hm
      · exact List.mem_cons_self
    cases hl : p.isLeftRecursive with
    | true =>
      obtain ⟨m, hget⟩ := hr.exists_prime hp hl
      -- The name is not the one in front, so it is in the tail.
      have hf : p.first.name = p.antecedent := by simpa [Production.isLeftRecursive] using hl
      have hrest : n ∈ p.rest.map Symbol.name :=
        hm.resolve_right fun h => h.2 (hf.symm.trans h.1)
      have hne : p.rest ≠ [] := by
        intro he
        simp [he] at hrest
      exact ⟨_, hr.mem_sides_iff.2 (.tail hp hget hl hne), by simp [hrest]⟩
    | false =>
      cases hget : OrderedMap.get? p.antecedent voc.primes with
      | none => exact ⟨p.sides, hr.mem_sides_iff.2 (.kept hp hget hl), hnames⟩
      | some m =>
        have hyield := (Production.mem_yield_iff hε).2 hnames
        exact ⟨_, hr.mem_sides_iff.2 (.base hp hget hl), List.mem_append_left _ hyield⟩

/-- Only a left recursive antecedent can occur nowhere but in front of its own
productions. -/
theorem occursBeyond_of_mem_usedNames {n : String} (hn : n ∈ g.usedNames)
    (hl : n ∉ g.leftRecursive) : g.OccursBeyond n := by
  obtain ⟨p, hp, hm⟩ := mem_usedNames_iff.1 hn
  rcases List.mem_cons.1 hm with rfl | hm
  · refine ⟨p, hp, .inr ⟨rfl, fun he => hl ?_⟩⟩
    exact mem_leftRecursive_iff.2 ⟨p, hp, beq_iff_eq.2 he.symm, he⟩
  · exact ⟨p, hp, .inl hm⟩

/-- **What a removal leaves unused**: the left recursive antecedents that do not
occur beyond their own productions, the start symbol apart. -/
theorem Removal.usesAll_iff (hr : g.Removal r voc) (hg : g.Closed) (hw : g.WellFormed) :
    r.UsesAll ↔ ∀ a ∈ g.leftRecursive, g.start ≠ some a → g.OccursBeyond a := by
  rw [usesAll_iff_of_sound hr.sound hg.named hr.nonTerminals_eq hr.terminals_eq hr.start_eq
    (fun _ hn => hr.mem_usedNames_of_new hn) fun _ hε hn => hr.mem_usedNames_iff hε hn]
  constructor
  · rintro ⟨-, h⟩ a ha hs
    exact h a (hg.rewritable.mem_of_mem_leftRecursive ha) hs.symm
  · intro h
    constructor
    · intro n hn
      exact occursBeyond_of_mem_usedNames (hw.terminal_used n hn)
        fun hl => hg.disjoint n hn (hg.rewritable.mem_of_mem_leftRecursive hl)
    · intro n hn hs
      by_cases hl : n ∈ g.leftRecursive
      · exact h n hl hs.symm
      · exact occursBeyond_of_mem_usedNames (hw.nonTerminal_used n hn hs) hl

/-! ### The operation -/

/-- Factoring keeps the parts of a grammar, and what it leaves unused. -/
theorem factorRounds_usesAll_iff (hg : g.Closed) (hp : g.HasParts) {rounds : Nat}
    {factored : Bool} (he : g.factorRounds policy rounds = (.ok factored, r)) :
    r.Closed ∧ r.HasParts ∧ (r.UsesAll ↔ g.UsesAll) := by
  refine factorRounds_of_round (P := fun h => h.HasParts ∧ (h.UsesAll ↔ g.UsesAll)) ?_ hg
    ⟨hp, Iff.rfl⟩ he
  rintro h r voc names sides hh hr ⟨hparts, huses⟩
  exact ⟨hparts.of_sound hr.sound hr.nonTerminals_eq hr.terminals_eq hr.start_eq,
    (hr.usesAll_iff hh).trans huses⟩

theorem usedNames_copy (g : Grammar) : g.copy.usedNames = g.usedNames := by
  rw [usedNames, usedNames, copy, retagged, List.flatMap_map]
  simp

theorem mem_leftRecursive_copy_iff {a : String} :
    a ∈ g.copy.leftRecursive ↔ a ∈ g.leftRecursive := by
  rw [mem_leftRecursive_iff, mem_leftRecursive_iff, copy, retagged]
  simp [Production.isLeftRecursive]

theorem occursBeyond_copy_iff {n : String} : g.copy.OccursBeyond n ↔ g.OccursBeyond n := by
  have hrest : ∀ p : Production, (p.retag g.nonTerminals).rest.map Symbol.name =
      p.rest.map Symbol.name :=
    fun p => (List.cons.inj (Production.names_retag g.nonTerminals p)).2
  constructor
  · rintro ⟨_, hp, h⟩
    obtain ⟨q, hq, rfl⟩ := List.mem_map.1 hp
    rw [hrest, Production.name_first_retag, Production.antecedent_retag] at h
    exact ⟨q, hq, h⟩
  · rintro ⟨q, hq, h⟩
    refine ⟨_, List.mem_map_of_mem hq, ?_⟩
    rwa [hrest, Production.name_first_retag, Production.antecedent_retag]

/-- **When the result of a normalization is valid**: if each left recursive
antecedent but the start symbol occurs elsewhere than in front of its own
productions. -/
theorem normalize_valid_iff (hg : g.Reachable) (hvalid : Diagnostic.hasErrors g.problems = false)
    {n : Normalization} (he : g.normalize policy = .ok n) :
    Diagnostic.hasErrors n.grammar.problems = false ↔
      ∀ a ∈ g.leftRecursive, g.start ≠ some a → g.OccursBeyond a := by
  have hw := wellFormed_iff.1 hvalid
  have hcopy := closed_copy hg.named hw
  have hparts : g.copy.HasParts := hw.hasParts
  have hwcopy : g.copy.WellFormed := by
    refine (hcopy.wellFormed_iff hparts).2 ?_
    rw [UsesAll, usedNames_copy]
    exact hw.usesAll
  -- A copy has other tags, which matter neither here nor there.
  have hkeep : (∀ a ∈ g.leftRecursive, g.start ≠ some a → g.OccursBeyond a) ↔
      ∀ a ∈ g.copy.leftRecursive, g.copy.start ≠ some a → g.copy.OccursBeyond a := by
    simp only [mem_leftRecursive_copy_iff, occursBeyond_copy_iff]
    rfl
  rw [Grammar.wellFormed_iff, hkeep]
  obtain ⟨removed, factored, work, done, hr, hf, rfl | ⟨rfl, -, rfl⟩⟩ := normalize_cases he
  · rcases eliminateLeftRecursion_outcome hcopy.rewritable hr with
      ⟨-, hnone, rfl⟩ | ⟨-, voc, hremoval⟩
    · -- Nothing was left recursive, and factoring spoils nothing.
      obtain ⟨hdone, hparts', huses⟩ := factorRounds_usesAll_iff hcopy hparts hf
      rw [hdone.wellFormed_iff hparts', huses, hnone]
      exact iff_of_true hwcopy.usesAll (by simp)
    · have hparts' := hparts.of_sound hremoval.sound hremoval.nonTerminals_eq
        hremoval.terminals_eq hremoval.start_eq
      obtain ⟨hdone, hparts', huses⟩ := factorRounds_usesAll_iff (hremoval.closed hcopy) hparts' hf
      rw [hdone.wellFormed_iff hparts', huses, hremoval.usesAll_iff hcopy hwcopy]
  · rw [(leftRecursive_eq_nil_of_kept hr).1]
    exact iff_of_true hw (by simp)

/-- A recursive antecedent that another one needs. -/
theorem normalize_valid_iff_needed :
    let items : List ProductionItem := [.sides ⟨"S", ["A", "c"]⟩, .sides ⟨"A", ["A", "b"]⟩,
      .sides ⟨"A", ["a"]⟩]
    let g : Grammar :=
      { nonTerminals := ["S", "A"], terminals := ["a", "b", "c"], start := some "S"
        productions := [⟨"S", .nonTerminal "A", [.terminal "c"]⟩,
          ⟨"A", .nonTerminal "A", [.terminal "b"]⟩, ⟨"A", .terminal "a", []⟩] }
    let r : Grammar :=
      { nonTerminals := ["S", "A", "A'"], terminals := ["a", "b", "c"], start := some "S"
        introduced := ["A'"]
        productions := [⟨"S", .nonTerminal "A", [.terminal "c"]⟩,
          ⟨"A'", .terminal "b", [.nonTerminal "A'"]⟩, ⟨"A", .terminal "a", [.nonTerminal "A'"]⟩,
          ⟨"A'", .epsilon, []⟩] }
    build "" "" ["S", "A"] ["a", "b", "c"] items (some "S") = .ok g ∧
      g.normalize .refuse = .ok ⟨r, true, false⟩ ∧ g.leftRecursive = ["A"] ∧
      Diagnostic.hasErrors r.problems = false := by
  intro items g r
  have hbuild : build "" "" ["S", "A"] ["a", "b", "c"] items (some "S") = .ok g := rfl
  have hvalid : Diagnostic.hasErrors g.problems = false := by decide +kernel
  have hnormalize : g.normalize .refuse = .ok ⟨r, true, false⟩ := by decide +kernel
  have hrecursive : g.leftRecursive = ["A"] := by decide +kernel
  refine ⟨hbuild, hnormalize, hrecursive,
    (normalize_valid_iff (.build hbuild) hvalid hnormalize).2 ?_⟩
  intro a ha _
  rw [hrecursive] at ha
  obtain rfl := List.mem_singleton.1 ha
  exact ⟨⟨"S", .nonTerminal "A", [.terminal "c"]⟩, by simp [g], .inr ⟨rfl, by decide⟩⟩

/-- **A normalization can be invalid**: here `A` only occurs in front of its own
production, and not at all once that is rewritten. -/
theorem exists_normalize_invalid :
    let items : List ProductionItem := [.sides ⟨"S", ["a"]⟩, .sides ⟨"A", ["A", "b"]⟩]
    let g : Grammar :=
      { nonTerminals := ["S", "A"], terminals := ["a", "b"], start := some "S"
        productions := [⟨"S", .terminal "a", []⟩, ⟨"A", .nonTerminal "A", [.terminal "b"]⟩] }
    let r : Grammar :=
      { nonTerminals := ["S", "A", "A'"], terminals := ["a", "b"], start := some "S"
        introduced := ["A'"]
        productions := [⟨"S", .terminal "a", []⟩, ⟨"A'", .terminal "b", [.nonTerminal "A'"]⟩,
          ⟨"A", .nonTerminal "A'", []⟩, ⟨"A'", .epsilon, []⟩] }
    build "" "" ["S", "A"] ["a", "b"] items (some "S") = .ok g ∧
      Diagnostic.hasErrors g.problems = false ∧
      g.normalize .refuse = .ok ⟨r, true, false⟩ ∧
      r.problems = [.about .unusedNonTerminal "A"
        "The non-terminal 'A' does not appear in the consequent of any production."] ∧
      Diagnostic.hasErrors r.problems = true := by
  intro items g r
  exact ⟨rfl, by decide +kernel, by decide +kernel, by decide +kernel, by decide +kernel⟩

end Grammar

end PredictiveParsing
