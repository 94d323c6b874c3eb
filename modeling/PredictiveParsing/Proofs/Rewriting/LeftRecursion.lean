import PredictiveParsing.Proofs.Grammar.Reachable
import PredictiveParsing.Proofs.Rewriting.Adoption

/-
Removing left recursion keeps what every non-terminal generates.

* `Grammar.withEmptyBases` — the grammar with an empty production for each
  antecedent all of whose productions begin with itself;
* `Unwound`, `exists_mem_withoutRecursionAll_iff` — the rules of the rewritten
  grammar;
* `Unwound.reading`, `yields_of_unwound` — what it yields, the old grammar with
  empty bases yields;
* `unwound_yields` — and the other way round;
* `Removal`, `eliminateLeftRecursion_outcome` — a grammar without left recursion,
  and what the operation gives;
* `Removal.yields_iff`, `eliminateLeftRecursion_spec` — both inclusions.

Design notes:

* `Unwound.Reading` reads a word of a new non-terminal `A'` as something that
  can be put behind every word of `A`.  That reading is closed under the new
  rules.
-/
namespace PredictiveParsing

/-- The names behind the first symbol, without `ε`. -/
def Production.tailWord (p : Production) : List String :=
  (p.rest.map Symbol.name).filter (· ≠ epsilonName)

theorem Production.word_eq_cons {p : Production} (h : p.first.name ≠ epsilonName) :
    p.word = p.first.name :: p.tailWord := by
  rw [word, names, consequent, List.map_cons, List.filter_cons_of_pos (by simpa using h)]
  rfl

namespace Grammar

/-! ### Empty bases -/

/-- The antecedents all of whose productions begin with the antecedent
itself. -/
def bareAntecedents (g : Grammar) : List String :=
  (g.productions.map Production.antecedent).eraseDups.filter fun a =>
    (g.productionsOf a).all fun p => p.first.name = a

/-- The grammar with an empty production for each of these. -/
def withEmptyBases (g : Grammar) : Grammar :=
  { g with productions := g.productions ++ g.bareAntecedents.map fun a => ⟨a, .epsilon, []⟩ }

variable {g r : Grammar}

theorem mem_bareAntecedents_iff {n : String} :
    n ∈ g.bareAntecedents ↔ (∃ p ∈ g.productions, p.antecedent = n) ∧
      ∀ p ∈ g.productions, p.antecedent = n → p.first.name = n := by
  simp only [bareAntecedents, productionsOf, List.mem_filter, List.mem_eraseDups, List.mem_map,
    List.all_eq_true, decide_eq_true_eq, and_imp]

theorem rule_withEmptyBases_iff {n : String} {v : List String} :
    g.withEmptyBases.Rule n v ↔ g.Rule n v ∨ n ∈ g.bareAntecedents ∧ v = [] := by
  have hword : ∀ a : String, Production.word ⟨a, .epsilon, []⟩ = [] := fun _ => rfl
  constructor
  · rintro ⟨p, hp, rfl, rfl⟩
    rcases List.mem_append.1 hp with hp | hp
    · exact .inl ⟨p, hp, rfl, rfl⟩
    · obtain ⟨a, ha, rfl⟩ := List.mem_map.1 hp
      exact .inr ⟨ha, hword a⟩
  · rintro (⟨p, hp, rfl, rfl⟩ | ⟨hn, rfl⟩)
    · exact ⟨p, List.mem_append_left _ hp, rfl, rfl⟩
    · exact ⟨_, List.mem_append_right _ (List.mem_map_of_mem hn), rfl, hword n⟩

/-- Without such antecedents the grammar stays as it is. -/
theorem withEmptyBases_eq_self (h : g.bareAntecedents = []) : g.withEmptyBases = g := by
  rw [withEmptyBases, h, List.map_nil, List.append_nil]

/-! ### The new names -/

theorem mem_leftRecursive_iff {a : String} :
    a ∈ g.leftRecursive ↔ ∃ p ∈ g.productions, p.isLeftRecursive = true ∧ p.antecedent = a := by
  simp only [leftRecursive, List.mem_eraseDups, List.mem_map, List.mem_filter, and_assoc]

theorem Rewritable.mem_of_mem_leftRecursive (hg : g.Rewritable) {a : String}
    (ha : a ∈ g.leftRecursive) : a ∈ g.nonTerminals := by
  obtain ⟨p, hp, -, rfl⟩ := mem_leftRecursive_iff.1 ha
  exact hg.antecedent_mem p hp

theorem mem_leftRecursive_of_mem_bareAntecedents {a : String} (ha : a ∈ g.bareAntecedents) :
    a ∈ g.leftRecursive := by
  obtain ⟨⟨p, hp, rfl⟩, hall⟩ := mem_bareAntecedents_iff.1 ha
  exact mem_leftRecursive_iff.2 ⟨p, hp, by simpa [Production.isLeftRecursive] using hall p hp rfl, rfl⟩

theorem bareAntecedents_eq_nil (h : g.leftRecursive = []) : g.bareAntecedents = [] := by
  rw [List.eq_nil_iff_forall_not_mem]
  intro a ha
  have hmem := mem_leftRecursive_of_mem_bareAntecedents ha
  rw [h] at hmem
  exact absurd hmem List.not_mem_nil

/-- Naming new non-terminals after a list of antecedents. -/
theorem foldlM_extend_spec {policy : CollisionPolicy} {as : List String} {voc voc' : Extension}
    (h : Extension.Sound g voc) (hn : g.Named) (has : ∀ a ∈ as, a ∈ g.nonTerminals)
    (he : as.foldlM (g.extend policy) voc = .ok voc') :
    Extension.Sound g voc' ∧ OrderedMap.keys voc'.primes = OrderedMap.keys voc.primes ++ as := by
  induction as generalizing voc with
  | nil =>
    obtain rfl : voc = voc' := Except.ok.inj he
    exact ⟨h, (List.append_nil _).symm⟩
  | cons a as ih =>
    rw [List.foldlM_cons] at he
    cases hf : g.freshName policy voc.taken a with
    | error fault => simp [extend, hf, bind, Except.bind] at he
    | ok n =>
      simp only [extend, hf, bind, Except.bind, pure, Except.pure] at he
      rw [List.forall_mem_cons] at has
      obtain ⟨hsound, hkeys⟩ := ih (h.add hn has.1 hf) has.2 he
      refine ⟨hsound, ?_⟩
      rw [hkeys]
      simp [OrderedMap.keys]

/-- Different antecedents have different new names. -/
theorem get?_primes_inj {voc : Extension} (h : Extension.Sound g voc) {a b m : String}
    (ha : OrderedMap.get? a voc.primes = some m) (hb : OrderedMap.get? b voc.primes = some m) :
    a = b := by
  have hinj := List.inj_on_of_nodup_map h.nodup (OrderedMap.mem_of_get? ha)
    (OrderedMap.mem_of_get? hb) rfl
  exact congrArg Prod.fst hinj

theorem mem_of_get?_primes {voc : Extension} {a m : String}
    (ha : OrderedMap.get? a voc.primes = some m) : m ∈ voc.primes.map (·.2) :=
  List.mem_map_of_mem (OrderedMap.mem_of_get? ha)

/-! ### The new rules -/

theorem mem_withoutRecursion {primes : List (String × String)} {last : Bool} {p : Production}
    {s : Sides} :
    s ∈ g.withoutRecursion primes last p ↔
      (OrderedMap.get? p.antecedent primes = none ∧ s = p.sides) ∨
      ∃ m, OrderedMap.get? p.antecedent primes = some m ∧
        (p.isLeftRecursive = true ∧ s ∈ p.recursiveTail m ∨
          p.isLeftRecursive = false ∧ s = p.basePart m ∨
          last = true ∧ s ∈ g.closing p.antecedent m) := by
  rw [withoutRecursion]
  cases hm : OrderedMap.get? p.antecedent primes with
  | none => simp
  | some m => cases p.isLeftRecursive <;> cases last <;> simp

/-- What stands for a list of productions: each on its own, and what closes
their antecedents. -/
theorem mem_withoutRecursionAll {primes : List (String × String)} {ps : List Production}
    {s : Sides} :
    s ∈ g.withoutRecursionAll primes ps ↔ ∃ p ∈ ps,
      (OrderedMap.get? p.antecedent primes = none ∧ s = p.sides) ∨
      ∃ m, OrderedMap.get? p.antecedent primes = some m ∧
        (p.isLeftRecursive = true ∧ s ∈ p.recursiveTail m ∨
          p.isLeftRecursive = false ∧ s = p.basePart m ∨ s ∈ g.closing p.antecedent m) := by
  induction ps with
  | nil => simp [withoutRecursionAll]
  | cons p ps ih =>
    rw [withoutRecursionAll, List.mem_append, mem_withoutRecursion, List.exists_mem_cons_iff, ih]
    constructor
    · rintro ((h | ⟨m, hm, h | h | h⟩) | h)
      · exact .inl (.inl h)
      · exact .inl (.inr ⟨m, hm, .inl h⟩)
      · exact .inl (.inr ⟨m, hm, .inr (.inl h)⟩)
      · exact .inl (.inr ⟨m, hm, .inr (.inr h.2)⟩)
      · exact .inr h
    · rintro ((h | ⟨m, hm, h | h | h⟩) | h)
      · exact .inl (.inl h)
      · exact .inl (.inr ⟨m, hm, .inl h⟩)
      · exact .inl (.inr ⟨m, hm, .inr (.inl h)⟩)
      · -- What closes the antecedent stands behind its last production.
        cases hlast : ps.all fun q => q.antecedent != p.antecedent with
        | true => exact .inl (.inr ⟨m, hm, .inr (.inr ⟨rfl, h⟩)⟩)
        | false =>
          obtain ⟨q, hq, hqa⟩ := List.all_eq_false.1 hlast
          have heq : q.antecedent = p.antecedent := by simpa using hqa
          exact .inr ⟨q, hq, .inr ⟨m, by rw [heq]; exact hm, .inr (.inr (by rw [heq]; exact h))⟩⟩
      · exact .inr h

/-- The rules after the removal of left recursion, with the new names that
antecedents were given. -/
inductive Unwound (g : Grammar) (primes : List (String × String)) :
    String → List String → Prop where
  | kept {p : Production} (hp : p ∈ g.productions)
      (hm : OrderedMap.get? p.antecedent primes = none) : Unwound g primes p.antecedent p.word
  | tail {p : Production} {m : String} (hp : p ∈ g.productions)
      (hm : OrderedMap.get? p.antecedent primes = some m) (hr : p.isLeftRecursive = true)
      (hne : p.rest ≠ []) : Unwound g primes m (p.tailWord ++ [m])
  | base {p : Production} {m : String} (hp : p ∈ g.productions)
      (hm : OrderedMap.get? p.antecedent primes = some m) (hr : p.isLeftRecursive = false) :
      Unwound g primes p.antecedent (p.word ++ [m])
  | bare {a m : String} (ha : a ∈ g.bareAntecedents) (hm : OrderedMap.get? a primes = some m) :
      Unwound g primes a [m]
  | close {p : Production} {m : String} (hp : p ∈ g.productions)
      (hm : OrderedMap.get? p.antecedent primes = some m) : Unwound g primes m []

theorem hasBase_eq_false_iff {p : Production} (hp : p ∈ g.productions) :
    g.hasBase p.antecedent = false ↔ p.antecedent ∈ g.bareAntecedents := by
  rw [mem_bareAntecedents_iff, hasBase, List.any_eq_false]
  simp only [productionsOf, List.mem_filter, decide_eq_true_eq, bne_iff_ne, ne_eq, Decidable.not_not,
    and_imp]
  exact (and_iff_right ⟨p, hp, rfl⟩).symm

section

variable {voc : Extension} {n : String} {v : List String}

theorem recursiveTail_of_ne_nil {p : Production} (h : p.rest ≠ []) (m : String) :
    p.recursiveTail m = [⟨m, p.rest.map Symbol.name ++ [m]⟩] := by
  rw [Production.recursiveTail]
  split
  · next he => exact absurd he h
  · rfl

/-- A new name is kept at the end of a word. -/
theorem filter_append_new (hvoc : Extension.Sound g voc) {a m : String}
    (hm : OrderedMap.get? a voc.primes = some m) (ns : List String) :
    (ns ++ [m]).filter (· ≠ epsilonName) = ns.filter (· ≠ epsilonName) ++ [m] := by
  have hne := hvoc.ne_epsilonName (mem_of_get?_primes hm)
  rw [List.filter_append, List.filter_cons_of_pos (by simpa using hne), List.filter_nil]

/-- Whatever the rewriting writes is one of these rules. -/
theorem unwound_of_mem (hvoc : Extension.Sound g voc) {s : Sides}
    (hs : s ∈ g.withoutRecursionAll voc.primes g.productions) :
    Unwound g voc.primes s.antecedent s.word := by
  obtain ⟨p, hp, ⟨hm, rfl⟩ | ⟨m, hm, ⟨hr, hs⟩ | ⟨hr, rfl⟩ | hs⟩⟩ := mem_withoutRecursionAll.1 hs
  · exact .kept hp hm
  · by_cases he : p.rest = []
    · simp [Production.recursiveTail, he] at hs
    · rw [recursiveTail_of_ne_nil he] at hs
      obtain rfl := List.mem_singleton.1 hs
      rw [Sides.word, filter_append_new hvoc hm]
      exact .tail hp hm hr he
  · rw [Sides.word, Production.basePart, filter_append_new hvoc hm, Production.filter_yield]
    exact .base hp hm hr
  · rw [closing, List.mem_append, List.mem_singleton] at hs
    rcases hs with hs | rfl
    · split at hs
      · simp at hs
      · next hb =>
        obtain rfl := List.mem_singleton.1 hs
        have hword : Sides.word ⟨p.antecedent, [m]⟩ = [m] := filter_append_new hvoc hm []
        rw [hword]
        exact .bare ((hasBase_eq_false_iff hp).1 (by simpa using hb)) hm
    · exact .close hp hm

/-- The rewriting writes each of these rules. -/
theorem Unwound.exists_mem (hvoc : Extension.Sound g voc) (h : Unwound g voc.primes n v) :
    ∃ s ∈ g.withoutRecursionAll voc.primes g.productions, s.antecedent = n ∧ s.word = v := by
  cases h with
  | @kept p hp hm => exact ⟨p.sides, mem_withoutRecursionAll.2 ⟨p, hp, .inl ⟨hm, rfl⟩⟩, rfl, rfl⟩
  | @tail p _ hp hm hr he =>
    refine ⟨⟨n, p.rest.map Symbol.name ++ [n]⟩, mem_withoutRecursionAll.2
      ⟨p, hp, .inr ⟨n, hm, .inl ⟨hr, ?_⟩⟩⟩, rfl, filter_append_new hvoc hm _⟩
    rw [recursiveTail_of_ne_nil he]
    exact List.mem_singleton_self _
  | @base p m hp hm hr =>
    refine ⟨p.basePart m, mem_withoutRecursionAll.2
      ⟨p, hp, .inr ⟨m, hm, .inr (.inl ⟨hr, rfl⟩)⟩⟩, rfl, ?_⟩
    rw [Sides.word, Production.basePart, filter_append_new hvoc hm, Production.filter_yield]
  | @bare _ m ha hm =>
    obtain ⟨⟨p, hp, rfl⟩, -⟩ := mem_bareAntecedents_iff.1 ha
    refine ⟨⟨p.antecedent, [m]⟩, mem_withoutRecursionAll.2
      ⟨p, hp, .inr ⟨m, hm, .inr (.inr ?_)⟩⟩, rfl, filter_append_new hvoc hm []⟩
    rw [closing, (hasBase_eq_false_iff hp).2 ha]
    exact List.mem_cons_self
  | @close p _ hp hm =>
    refine ⟨⟨n, [epsilonName]⟩, mem_withoutRecursionAll.2
      ⟨p, hp, .inr ⟨n, hm, .inr (.inr ?_)⟩⟩, rfl, rfl⟩
    exact List.mem_append_right _ (List.mem_singleton_self _)

theorem exists_mem_withoutRecursionAll_iff (hvoc : Extension.Sound g voc) :
    (∃ s ∈ g.withoutRecursionAll voc.primes g.productions, s.antecedent = n ∧ s.word = v) ↔
      Unwound g voc.primes n v := by
  constructor
  · rintro ⟨s, hs, rfl, rfl⟩
    exact unwound_of_mem hvoc hs
  · exact fun h => h.exists_mem hvoc

theorem notMem_of_get?_primes (hvoc : Extension.Sound g voc) {a m : String}
    (hm : OrderedMap.get? a voc.primes = some m) : m ∉ g.nonTerminals ∧ m ∉ g.terminals :=
  hvoc.notMem m (mem_of_get?_primes hm)

/-- The rules of a new name go on with a tail, or end. -/
theorem Unwound.of_new (hg : g.Closed) (hvoc : Extension.Sound g voc) {a m : String}
    (hm : OrderedMap.get? a voc.primes = some m) (h : Unwound g voc.primes m v) :
    (∃ p ∈ g.productions, p.isLeftRecursive = true ∧ v = p.tailWord ++ [m]) ∨ v = [] := by
  have hfresh := notMem_of_get?_primes hvoc hm
  cases h with
  | kept hp => exact absurd (hg.antecedent_mem _ hp) hfresh.1
  | tail hp _ hr => exact .inl ⟨_, hp, hr, rfl⟩
  | base hp => exact absurd (hg.antecedent_mem _ hp) hfresh.1
  | bare ha =>
    obtain ⟨⟨p, hp, rfl⟩, -⟩ := mem_bareAntecedents_iff.1 ha
    exact absurd (hg.antecedent_mem p hp) hfresh.1
  | close => exact .inr rfl

/-- The rules of an antecedent with a new name end with that name. -/
theorem Unwound.of_old (hvoc : Extension.Sound g voc) {a m : String} (ha : a ∈ g.nonTerminals)
    (hm : OrderedMap.get? a voc.primes = some m) (h : Unwound g voc.primes a v) :
    ∃ u, v = u ++ [m] := by
  have hold : ∀ {b}, OrderedMap.get? b voc.primes ≠ some a :=
    fun hb => (notMem_of_get?_primes hvoc hb).1 ha
  cases h with
  | kept hp hn =>
    rw [hm] at hn
    cases hn
  | tail hp hn => exact absurd hn hold
  | base hp hn =>
    obtain rfl := Option.some.inj (hm.symm.trans hn)
    exact ⟨_, rfl⟩
  | bare hb hn =>
    obtain rfl := Option.some.inj (hm.symm.trans hn)
    exact ⟨[], rfl⟩
  | close hp hn => exact absurd hn hold

end

/-! ### What the new rules yield -/

theorem Closed.ne_epsilonName (hg : g.Closed) {p : Production} (hp : p ∈ g.productions) :
    p.antecedent ≠ epsilonName :=
  hg.named.nonTerminals.ne_epsilonName (hg.antecedent_mem p hp)

/-- A recursive production writes its antecedent and its tail. -/
theorem Closed.word_of_isLeftRecursive (hg : g.Closed) {p : Production} (hp : p ∈ g.productions)
    (hr : p.isLeftRecursive = true) : p.word = p.antecedent :: p.tailWord := by
  have hf : p.first.name = p.antecedent := by simpa [Production.isLeftRecursive] using hr
  rw [Production.word_eq_cons (by rw [hf]; exact hg.ne_epsilonName hp), hf]

theorem Closed.tailWord_declared (hg : g.Closed) {p : Production} (hp : p ∈ g.productions) :
    ∀ a ∈ p.tailWord, a ∈ g.nonTerminals ∨ a ∈ g.terminals := by
  intro a ha
  obtain ⟨ha, hne⟩ := List.mem_filter.1 ha
  have hword : a ∈ p.word :=
    Production.mem_word_iff.2 ⟨List.mem_cons_of_mem _ ha, by simpa using hne⟩
  exact hg.rule_declared ⟨p, hp, rfl, rfl⟩ a hword

/-- The antecedents with new names are those of left recursive productions. -/
theorem get?_of_mem_bareAntecedents {voc : Extension}
    (hkeys : OrderedMap.keys voc.primes = g.leftRecursive) {a : String}
    (ha : a ∈ g.bareAntecedents) : ∃ m, OrderedMap.get? a voc.primes = some m := by
  have hk : a ∈ OrderedMap.keys voc.primes := by
    rw [hkeys]
    exact mem_leftRecursive_of_mem_bareAntecedents ha
  exact Option.isSome_iff_exists.1 (OrderedMap.get?_isSome.2 hk)

/-- How a word of the rewritten grammar is read in the old one: as a word of
the same name or, if the name is new, as something that can be put behind every
word of its antecedent. -/
structure Unwound.Reading (g : Grammar) (primes : List (String × String)) (n : String)
    (x : List String) : Prop where
  yields : n ∈ g.nonTerminals ∨ n ∈ g.terminals → g.withEmptyBases.Yields [n] x
  append : ∀ b, OrderedMap.get? b primes = some n →
    ∀ z, g.withEmptyBases.Yields [b] z → g.withEmptyBases.Yields [b] (z ++ x)

theorem yields_word_withEmptyBases {p : Production} (hp : p ∈ g.productions) {x : List String}
    (hx : g.withEmptyBases.Yields p.word x) : g.withEmptyBases.Yields [p.antecedent] x :=
  yields_of_rule (rule_withEmptyBases_iff.2 (.inl ⟨p, hp, rfl, rfl⟩)) hx

section

variable {voc : Extension} (hg : g.Closed) (hvoc : Extension.Sound g voc)

theorem Unwound.Reading.yields_of_spells {u x : List String} (hs : Spells (Unwound.Reading g voc.primes) u x)
    (hu : ∀ b ∈ u, b ∈ g.nonTerminals ∨ b ∈ g.terminals) : g.withEmptyBases.Yields u x :=
  Grammar.yields_of_spells (hs.mono fun b hb _ hx => hx.yields (hu b hb))

include hvoc in
theorem Unwound.Reading.of_old {a : String} {x : List String} (ha : a ∈ g.nonTerminals)
    (hx : g.withEmptyBases.Yields [a] x) : Unwound.Reading g voc.primes a x :=
  ⟨fun _ => hx, fun _ hb => absurd ha (notMem_of_get?_primes hvoc hb).1⟩

include hvoc in
theorem Unwound.Reading.of_new {a m : String} {x : List String}
    (hm : OrderedMap.get? a voc.primes = some m)
    (hx : ∀ z, g.withEmptyBases.Yields [a] z → g.withEmptyBases.Yields [a] (z ++ x)) :
    Unwound.Reading g voc.primes m x := by
  refine ⟨fun hd => absurd hd (not_or.2 (notMem_of_get?_primes hvoc hm)), fun b hb z hz => ?_⟩
  obtain rfl := get?_primes_inj hvoc hb hm
  exact hx z hz

include hg hvoc

/-- **The new rules keep to the reading.** -/
theorem Unwound.reading {n : String} {v x : List String} (h : Unwound g voc.primes n v)
    (hx : Spells (Unwound.Reading g voc.primes) v x) : Unwound.Reading g voc.primes n x := by
  cases h with
  | @kept p hp hm =>
    refine .of_old hvoc (hg.antecedent_mem p hp) (yields_word_withEmptyBases hp ?_)
    exact Reading.yields_of_spells hx (hg.rule_declared ⟨p, hp, rfl, rfl⟩)
  | @tail p _ hp hm hl =>
    -- Behind a word of the antecedent comes the tail, and what the new name stands for
    -- can come behind that.
    obtain ⟨u, t, rfl, hu, ht⟩ := spells_append.1 hx
    refine .of_new hvoc hm fun z hz => ?_
    have hzu : g.withEmptyBases.Yields [p.antecedent] (z ++ u) := by
      refine yields_word_withEmptyBases hp ?_
      rw [hg.word_of_isLeftRecursive hp hl]
      exact hz.append (Reading.yields_of_spells hu (hg.tailWord_declared hp))
    rw [← List.append_assoc]
    exact (spells_singleton.1 ht).append _ hm _ hzu
  | @base p m hp hm hl =>
    obtain ⟨u, t, rfl, hu, ht⟩ := spells_append.1 hx
    have hyu : g.withEmptyBases.Yields [p.antecedent] u :=
      yields_word_withEmptyBases hp
        (Reading.yields_of_spells hu (hg.rule_declared ⟨p, hp, rfl, rfl⟩))
    exact .of_old hvoc (hg.antecedent_mem p hp) ((spells_singleton.1 ht).append _ hm u hyu)
  | @bare _ m hb hm =>
    obtain ⟨⟨p, hp, rfl⟩, -⟩ := mem_bareAntecedents_iff.1 hb
    have hempty : g.withEmptyBases.Yields [p.antecedent] [] :=
      yields_of_rule (rule_withEmptyBases_iff.2 (.inr ⟨hb, rfl⟩)) .nil
    exact .of_old hvoc (hg.antecedent_mem p hp) ((spells_singleton.1 hx).append _ hm [] hempty)
  | @close p _ hp hm =>
    obtain rfl : x = [] := hx
    exact .of_new hvoc hm fun z hz => by rwa [List.append_nil]

variable (hnts : r.nonTerminals = voc.nonTerminals)
  (hrule : ∀ n v, r.Rule n v ↔ Unwound g voc.primes n v)

include hnts hrule

/-- **What the rewritten grammar yields, the old one with empty bases
yields.** -/
theorem yields_of_unwound {a : String} (ha : a ∈ g.nonTerminals) {w : List String}
    (hy : r.Yields [a] w) : g.withEmptyBases.Yields [a] w := by
  have hs : Spells (Unwound.Reading g voc.primes) [a] w := by
    refine hy.spells (fun n hn => ?_) fun n v x hr hx => ((hrule n v).1 hr).reading hg hvoc hx
    rw [hnts, hvoc.mem_nonTerminals_iff, not_or] at hn
    exact ⟨fun _ => .keep hn.1 .nil, fun b hb => absurd (mem_of_get?_primes hb) hn.2⟩
  exact (spells_singleton.1 hs).yields (.inl ha)

/-- A word of a new name can be followed by what the tail of a recursive
production yields. -/
theorem unwound_append_tail {p : Production} (hp : p ∈ g.productions) {m : String}
    (hm : OrderedMap.get? p.antecedent voc.primes = some m) (hl : p.isLeftRecursive = true)
    {t u : List String} (ht : r.Yields [m] t) (hu : r.Yields p.tailWord u) :
    r.Yields [m] (t ++ u) := by
  have hclose : r.Yields [m] [] := yields_of_rule ((hrule _ _).2 (.close hp hm)) .nil
  by_cases hne : p.rest = []
  · -- The production is dropped, but then its tail yields the empty word only.
    have htail : p.tailWord = [] := by rw [Production.tailWord, hne]; rfl
    rw [htail] at hu
    cases hu
    rwa [List.append_nil]
  · have hs := ht.spells (S := fun n x => r.Yields [n] x ∧ (n = m → r.Yields [m] (x ++ u))) ?_ ?_
    · exact (spells_singleton.1 hs).2 rfl
    · intro n hn
      refine ⟨.keep hn .nil, fun he => ?_⟩
      rw [he, hnts] at hn
      exact absurd (hvoc.mem_of_new (mem_of_get?_primes hm)) hn
    · intro n v x hr hx
      have hv : r.Yields v x := yields_of_spells (hx.mono fun _ _ _ hS => hS.1)
      refine ⟨yields_of_rule hr hv, ?_⟩
      rintro rfl
      rcases ((hrule _ _).1 hr).of_new hg hvoc hm with ⟨q, -, -, rfl⟩ | rfl
      · obtain ⟨y, z, rfl, hy, hz⟩ := spells_append.1 hx
        have hyield := yields_of_spells (hy.mono fun _ _ _ hS => hS.1)
        rw [List.append_assoc]
        exact yields_of_rule hr (hyield.append ((spells_singleton.1 hz).2 rfl))
      · -- Where the new name ended, it goes on with the tail and ends behind it.
        obtain rfl : x = [] := hx
        refine yields_of_rule ((hrule _ _).2 (.tail hp hm hl hne)) ?_
        have happend := hu.append hclose
        rwa [List.append_nil] at happend

/-- A word of an antecedent can be followed by what the tail of a recursive
production of it yields. -/
theorem unwound_append {p : Production} (hp : p ∈ g.productions) {m : String}
    (hm : OrderedMap.get? p.antecedent voc.primes = some m) (hl : p.isLeftRecursive = true)
    {y u : List String} (hy : r.Yields [p.antecedent] y) (hu : r.Yields p.tailWord u) :
    r.Yields [p.antecedent] (y ++ u) := by
  have hmem := hg.antecedent_mem p hp
  have hkept : p.antecedent ∈ r.nonTerminals := by
    rw [hnts]
    exact hvoc.mem_of_mem hmem
  obtain ⟨v, hr, hv⟩ := hy.exists_rule hkept
  obtain ⟨b, rfl⟩ := ((hrule _ _).1 hr).of_old hvoc hmem hm
  obtain ⟨x, t, rfl, hx, ht⟩ := yields_append_iff.1 hv
  rw [List.append_assoc]
  exact yields_of_rule hr (hx.append (unwound_append_tail hg hvoc hnts hrule hp hm hl ht hu))

/-- **What the old grammar with empty bases yields, the rewritten one
yields.** -/
theorem unwound_yields (hkeys : OrderedMap.keys voc.primes = g.leftRecursive) {a : String}
    (ha : a ∈ g.nonTerminals) {w : List String} (hy : g.withEmptyBases.Yields [a] w) :
    r.Yields [a] w := by
  have hclose : ∀ {p : Production} {m}, p ∈ g.productions →
      OrderedMap.get? p.antecedent voc.primes = some m → r.Yields [m] [] :=
    fun hp hm => yields_of_rule ((hrule _ _).2 (.close hp hm)) .nil
  refine hy.of_rules (D := fun n => n ∈ g.nonTerminals ∨ n ∈ g.terminals) ?_ ?_ ?_ (by simp [ha])
  · intro n hd hn
    rw [hnts]
    exact hvoc.notMem_of_declared hd hn
  · intro n v hr
    rcases rule_withEmptyBases_iff.1 hr with hr | ⟨-, rfl⟩
    · exact hg.rule_declared hr
    · simp
  · intro n v x hr hx
    rcases rule_withEmptyBases_iff.1 hr with ⟨p, hp, rfl, rfl⟩ | ⟨hb, rfl⟩
    · cases hm : OrderedMap.get? p.antecedent voc.primes with
      | none => exact yields_of_rule ((hrule _ _).2 (.kept hp hm)) hx
      | some m =>
        cases hl : p.isLeftRecursive with
        | true =>
          rw [hg.word_of_isLeftRecursive hp hl] at hx
          obtain ⟨y, u, rfl, hy, hu⟩ := yields_cons_iff.1 hx
          -- The word of the antecedent is there already; the tail goes behind it.
          exact unwound_append hg hvoc hnts hrule hp hm hl hy hu
        | false =>
          refine yields_of_rule ((hrule _ _).2 (.base hp hm hl)) ?_
          have happend := hx.append (hclose hp hm)
          rwa [List.append_nil] at happend
    · obtain ⟨m, hm⟩ := get?_of_mem_bareAntecedents hkeys hb
      refine yields_of_rule ((hrule _ _).2 (.bare hb hm)) ?_
      cases hx
      obtain ⟨⟨p, hp, rfl⟩, -⟩ := mem_bareAntecedents_iff.1 hb
      exact hclose hp hm

end

/-! ### The operation -/

/-- The sides of the rewriting write declared names. -/
theorem withoutRecursionAll_declared {voc : Extension} (hg : g.Closed)
    (hvoc : Extension.Sound g voc) {s : Sides}
    (hs : s ∈ g.withoutRecursionAll voc.primes g.productions) :
    s.Declared voc.nonTerminals g.terminals := by
  obtain ⟨p, hp, ⟨-, rfl⟩ | ⟨m, hm, hs⟩⟩ := mem_withoutRecursionAll.1 hs
  · exact hvoc.declared hg hp (.inl rfl) fun n hn => .inr (.inl hn)
  · have hnew := mem_of_get?_primes hm
    rcases hs with ⟨-, hs⟩ | ⟨-, rfl⟩ | hs
    · rw [Production.recursiveTail] at hs
      split at hs
      · simp at hs
      · obtain rfl := List.mem_singleton.1 hs
        refine hvoc.declared hg hp (.inr hnew) fun n hn => ?_
        rcases List.mem_append.1 hn with hn | hn
        · exact .inr (.inl (List.mem_cons_of_mem _ hn))
        · exact .inr (.inr (List.mem_singleton.1 hn ▸ hnew))
    · refine hvoc.declared hg hp (.inl rfl) fun n hn => ?_
      rcases List.mem_append.1 hn with hn | hn
      · rw [Production.yield] at hn
        split at hn
        · simp at hn
        · exact .inr (.inl hn)
      · exact .inr (.inr (List.mem_singleton.1 hn ▸ hnew))
    · rw [closing, List.mem_append, List.mem_singleton] at hs
      rcases hs with hs | rfl
      · split at hs
        · simp at hs
        · obtain rfl := List.mem_singleton.1 hs
          exact hvoc.declared hg hp (.inl rfl)
            fun n hn => .inr (.inr (List.mem_singleton.1 hn ▸ hnew))
      · exact hvoc.declared hg hp (.inr hnew) fun n hn => .inl (List.mem_singleton.1 hn)

/-- The grammar `r` is `g` without left recursion, under the names in `voc`. -/
structure Removal (g r : Grammar) (voc : Extension) : Prop where
  sound : Extension.Sound g voc
  keys_eq : OrderedMap.keys voc.primes = g.leftRecursive
  eq_rewritten : r = g.rewritten voc.nonTerminals (voc.primes.map (·.2))
    (g.withoutRecursionAll voc.primes g.productions)

section

variable {voc : Extension}

theorem Removal.nonTerminals_eq (hr : g.Removal r voc) : r.nonTerminals = voc.nonTerminals := by
  rw [hr.eq_rewritten, nonTerminals_rewritten]

theorem Removal.terminals_eq (hr : g.Removal r voc) : r.terminals = g.terminals := by
  rw [hr.eq_rewritten, terminals_rewritten]

theorem Removal.start_eq (hr : g.Removal r voc) : r.start = g.start := by
  rw [hr.eq_rewritten, start_rewritten]

theorem Removal.productions_eq (hr : g.Removal r voc) :
    r.productions = (g.withoutRecursionAll voc.primes g.productions).map r.tag := by
  rw [hr.eq_rewritten, productions_rewritten]

theorem Removal.closed (hr : g.Removal r voc) (hg : g.Closed) : r.Closed := by
  rw [hr.eq_rewritten]
  exact closed_rewritten hr.sound _ hg fun s hs => withoutRecursionAll_declared hg hr.sound hs

end

/-- Nothing is removed only if there is no left recursion. -/
theorem leftRecursive_eq_nil_of_kept {policy : CollisionPolicy}
    (he : g.eliminateLeftRecursion policy = (.ok false, r)) : g.leftRecursive = [] ∧ r = g := by
  rcases eliminateLeftRecursion_cases policy g with ⟨hnone, h⟩ | ⟨_, h⟩ | ⟨_, -, h⟩
  · rw [h] at he
    exact ⟨hnone, (Prod.mk.inj he).2.symm⟩
  · rw [h] at he
    cases he
  · rw [h] at he
    split at he <;> cases he

/-- Left recursion was not there, or it was removed. -/
theorem eliminateLeftRecursion_outcome (hg : g.Rewritable) {policy : CollisionPolicy}
    {removed : Bool} (he : g.eliminateLeftRecursion policy = (.ok removed, r)) :
    (removed = false ∧ g.leftRecursive = [] ∧ r = g) ∨ removed = true ∧ ∃ voc, g.Removal r voc := by
  rcases eliminateLeftRecursion_cases policy g with ⟨hnone, h⟩ | ⟨_, h⟩ | ⟨voc, hfold, h⟩
  · rw [h] at he
    cases he
    exact .inl ⟨rfl, hnone, rfl⟩
  · rw [h] at he
    cases he
  · obtain ⟨hvoc, hkeys⟩ := foldlM_extend_spec (sound_unextended hg.named) hg.named
      (fun a ha => hg.mem_of_mem_leftRecursive ha) hfold
    rw [h, adopt_of_sound hvoc _ hg.named] at he
    cases he
    exact .inr ⟨rfl, voc, hvoc, hkeys, rfl⟩

/-- **Removing left recursion keeps what every non-terminal yields**, once
antecedents without a base have an empty production. -/
theorem Removal.yields_iff {voc : Extension} (hr : g.Removal r voc) (hg : g.Closed) {a : String}
    (ha : a ∈ g.nonTerminals) {w : List String} :
    r.Yields [a] w ↔ g.withEmptyBases.Yields [a] w := by
  have hrule : ∀ n v, r.Rule n v ↔ Unwound g voc.primes n v := fun n v =>
    (rule_iff_of_productions_eq hr.productions_eq).trans (exists_mem_withoutRecursionAll_iff hr.sound)
  constructor
  · exact yields_of_unwound hg hr.sound hr.nonTerminals_eq hrule ha
  · exact unwound_yields hg hr.sound hr.nonTerminals_eq hrule hr.keys_eq ha

theorem eliminateLeftRecursion_spec (hg : g.Closed) {policy : CollisionPolicy} {removed : Bool}
    (he : g.eliminateLeftRecursion policy = (.ok removed, r)) :
    r.Closed ∧ (∀ n ∈ g.nonTerminals, n ∈ r.nonTerminals) ∧
      ∀ a ∈ g.nonTerminals, ∀ w, r.Yields [a] w ↔ g.withEmptyBases.Yields [a] w := by
  rcases eliminateLeftRecursion_outcome hg.rewritable he with ⟨-, hnone, rfl⟩ | ⟨-, voc, hr⟩
  · rw [withEmptyBases_eq_self (bareAntecedents_eq_nil hnone)]
    exact ⟨hg, fun _ hn => hn, fun _ _ _ => Iff.rfl⟩
  · refine ⟨hr.closed hg, fun n hn => ?_, fun a ha w => hr.yields_iff hg ha⟩
    rw [hr.nonTerminals_eq]
    exact hr.sound.mem_of_mem hn

end Grammar

end PredictiveParsing
