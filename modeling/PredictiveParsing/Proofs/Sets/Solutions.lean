import Mathlib.Order.Bounds.Basic
import PredictiveParsing.Proofs.Sets.Canonical
import PredictiveParsing.Proofs.Sets.Remembered

/-
FIRST and FOLLOW are the least sets with their rules.

* `Grammar.AdmitsFirst`, `Grammar.AdmitsFollow` — the rules, of any sets;
* `begins_iff_exists_chain` — what a name can begin with is at the end of a
  chain of first symbols;
* `solveFirst_isLeast`, `solveFollow_isLeast` — the passes end with the least
  sets that obey the rules, and these are the same in whatever order
  non-terminals and productions stand.

Design notes:

* The sets are least because they hold what the inductive relations `Begins`
  and `Follows` say, and these say no more than the rules ask for.
* The order does not matter because sets with the same members are equal, and
  the names that are listed are told by membership alone.
-/
namespace PredictiveParsing

namespace Grammar

variable {g h : Grammar} {first : Family}

/-! ### The rules -/

/-- Sets that obey the rules for FIRST: a production that begins with a
non-terminal lets its antecedent begin as that does, and any other with its
first symbol. -/
structure AdmitsFirst (g : Grammar) (F : String → Set String) : Prop where
  direct : ∀ p ∈ g.productions, p.first.isNonTerminal = false → p.first.name ∈ F p.antecedent
  through : ∀ p ∈ g.productions, ∀ n, p.first = .nonTerminal n → F n ⊆ F p.antecedent

/-- Sets that obey the rules for FOLLOW, for given FIRST sets. -/
structure AdmitsFollow (g : Grammar) (first : Family) (F : String → Set String) : Prop where
  start : ∀ s, g.start = some s → endName ∈ F s
  last : ∀ p ∈ g.productions, ∀ before n, p.consequent = before ++ [.nonTerminal n] →
    F p.antecedent ⊆ F n
  terminal : ∀ p ∈ g.productions, ∀ before n t behind,
    p.consequent = before ++ .nonTerminal n :: .terminal t :: behind → t ∈ F n
  first : ∀ p ∈ g.productions, ∀ before n m behind,
    p.consequent = before ++ .nonTerminal n :: .nonTerminal m :: behind →
    {x | x ∈ first.of m ∧ x ≠ epsilonName} ⊆ F n
  empty : ∀ p ∈ g.productions, ∀ before n m behind,
    p.consequent = before ++ .nonTerminal n :: .nonTerminal m :: behind →
    (∃ q ∈ g.productions, q.antecedent = m ∧ q.first = .epsilon) → F p.antecedent ⊆ F n

theorem hasEpsilonProduction_iff {n : String} :
    g.hasEpsilonProduction n = true ↔ ∃ q ∈ g.productions, q.antecedent = n ∧ q.first = .epsilon := by
  simp only [hasEpsilonProduction, List.any_eq_true, Bool.and_eq_true, beq_iff_eq,
    Symbol.isEpsilon_iff]

theorem Begins.mem_of_admitsFirst {F : String → Set String} (hF : g.AdmitsFirst F) {n x : String}
    (hb : g.Begins n x) : x ∈ F n := by
  induction hb with
  | direct hp hf => exact hF.direct _ hp hf
  | through hp hf _ ih => exact hF.through _ hp _ hf ih

theorem Follows.mem_of_admitsFollow {F : String → Set String} (hF : g.AdmitsFollow first F)
    {n x : String} (hf : g.Follows first n x) : x ∈ F n := by
  induction hf with
  | start hs => exact hF.start _ hs
  | last hp hc _ ih => exact hF.last _ hp _ _ hc ih
  | terminal hp hc => exact hF.terminal _ hp _ _ _ _ hc
  | first hp hc hx hne => exact hF.first _ hp _ _ _ _ hc ⟨hx, hne⟩
  | empty hp hc he _ ih => exact hF.empty _ hp _ _ _ _ hc (hasEpsilonProduction_iff.1 he) ih

/-! ### Chains of first symbols -/

/-- A production of the first name begins with the second, a non-terminal. -/
def BeginsWith (g : Grammar) (n m : String) : Prop :=
  ∃ p ∈ g.productions, p.antecedent = n ∧ p.first = .nonTerminal m

/-- **What a name can begin with is at the end of a chain of first symbols.** -/
theorem begins_iff_exists_chain {n x : String} :
    g.Begins n x ↔ ∃ chain : List String, chain.head? = some n ∧ chain.IsChain g.BeginsWith ∧
      ∃ p ∈ g.productions, chain.getLast? = some p.antecedent ∧
        p.first.isNonTerminal = false ∧ p.first.name = x := by
  constructor
  · intro hb
    induction hb with
    | @direct p hp hf => exact ⟨[p.antecedent], rfl, .singleton _, p, hp, rfl, hf, rfl⟩
    | @through p m x hp hf _ ih =>
      obtain ⟨chain, hhead, hchain, q, hq, hlast, hend⟩ := ih
      refine ⟨p.antecedent :: chain, rfl, ?_, q, hq, ?_, hend⟩
      · refine List.isChain_cons.2 ⟨?_, hchain⟩
        intro k hk
        obtain rfl := Option.some.inj (hhead.symm.trans hk)
        exact ⟨p, hp, rfl, hf⟩
      · rw [List.getLast?_cons, hlast]
        rfl
  · rintro ⟨chain, hhead, hchain, q, hq, hlast, hend, rfl⟩
    induction chain generalizing n with
    | nil => cases hhead
    | cons m chain ih =>
      obtain rfl := Option.some.inj hhead
      cases chain with
      | nil =>
        obtain rfl : m = q.antecedent := Option.some.inj hlast
        exact .direct hq hend
      | cons k chain =>
        obtain ⟨⟨p, hp, rfl, hf⟩, hrest⟩ := List.isChain_cons_cons.1 hchain
        exact .through hp hf (ih rfl hrest (by rwa [List.getLast?_cons_cons] at hlast))

/-! ### The families before the passes -/

theorem isCanonical_declareAll (ns : List String) {f : Family} (hf : f.IsCanonical) :
    (Family.declareAll ns f).IsCanonical := by
  intro n
  rw [Family.of_declareAll]
  exact hf n

theorem isCanonical_foldl_seeds (ps : List Production) {f : Family} (hf : f.IsCanonical) :
    (ps.foldl (fun f p => f.add p.antecedent [p.first.name]) f).IsCanonical :=
  List.foldlRecOn (motive := Family.IsCanonical) ps _ hf fun _ hf _ _ => hf.add _ _

theorem isCanonical_seededFirst : g.seededFirst.IsCanonical :=
  isCanonical_foldl_seeds _ (isCanonical_declareAll _ Family.isCanonical_nil)

theorem isCanonical_seededFollow : (g.seededFollow first).IsCanonical := by
  refine isCanonical_declareAll _ ?_
  have hlisted : (Family.declareAll g.nonTerminals []).IsCanonical :=
    isCanonical_declareAll _ Family.isCanonical_nil
  split
  · next s _ =>
    refine Family.IsCanonical.add ?_ _ _
    intro n
    rw [Family.of_declare]
    exact hlisted n
  · exact hlisted

theorem mem_keys_seededFirst_iff {n : String} : n ∈ OrderedMap.keys g.seededFirst ↔
    n ∈ g.nonTerminals ∨ ∃ p ∈ g.productions, p.antecedent = n := by
  have hlisted : ∀ m, m ∈ OrderedMap.keys (Family.declareAll g.firstNames []) ↔
      m ∈ g.nonTerminals ∨ ∃ p ∈ g.productions, p.antecedent = m := by
    intro m
    rw [Family.mem_keys_declareAll, firstNames, List.mem_eraseDups, List.mem_append, List.mem_map]
    simp [OrderedMap.keys]
  -- The antecedents are listed, so that what is entered lists no more names.
  have hkeys : OrderedMap.keys g.seededFirst =
      OrderedMap.keys (Family.declareAll g.firstNames []) := by
    refine List.foldlRecOn (motive := fun f => OrderedMap.keys f =
      OrderedMap.keys (Family.declareAll g.firstNames [])) g.seeds _ rfl ?_
    intro f hf p hp
    rw [Family.keys_add, hf]
    rw [hf, hlisted]
    exact .inr ⟨p, List.mem_of_mem_filter hp, rfl⟩
  rw [hkeys, hlisted]

theorem nodup_keys_foldl_seeds (ps : List Production) {f : Family}
    (hf : (OrderedMap.keys f).Nodup) :
    (OrderedMap.keys (ps.foldl (fun f p => Family.add p.antecedent [p.first.name] f) f)).Nodup :=
  List.foldlRecOn (motive := fun f : Family => (OrderedMap.keys f).Nodup) ps _ hf
    fun _ hf _ _ => OrderedMap.nodup_keys_put hf _ _

theorem nodup_keys_seededFirst : (OrderedMap.keys g.seededFirst).Nodup :=
  nodup_keys_foldl_seeds _ (Family.nodup_keys_declareAll _ List.nodup_nil)

theorem nodup_keys_seededFollow : (OrderedMap.keys (g.seededFollow first)).Nodup := by
  refine Family.nodup_keys_declareAll _ ?_
  have hlisted : (OrderedMap.keys (Family.declareAll g.nonTerminals [])).Nodup :=
    Family.nodup_keys_declareAll _ List.nodup_nil
  split
  · exact OrderedMap.nodup_keys_put (Family.nodup_keys_declare _ hlisted) _ _
  · exact hlisted

@[simp] theorem target_occurrenceInclusion (antecedent n : String) (o : Option Symbol) :
    (g.occurrenceInclusion first antecedent (n, o)).target = n := by
  cases o with
  | none => rfl
  | some s => cases s <;> rfl

theorem mem_target_followInclusions_iff {n : String} :
    n ∈ (g.followInclusions first).map Inclusion.target ↔
      ∃ p ∈ g.productions, .nonTerminal n ∈ p.consequent := by
  constructor
  · intro hn
    obtain ⟨c, hc, rfl⟩ := List.mem_map.1 hn
    obtain ⟨p, hp, before, m, behind, hconsequent, rfl⟩ := exists_of_mem_followInclusions hc
    refine ⟨p, hp, ?_⟩
    simp [hconsequent]
  · rintro ⟨p, hp, hn⟩
    obtain ⟨before, behind, hconsequent⟩ := List.append_of_mem hn
    refine List.mem_map.2 ⟨g.occurrenceInclusion first p.antecedent (n, behind.head?), ?_,
      target_occurrenceInclusion _ _ _⟩
    refine List.mem_flatMap.2 ⟨p, hp, List.mem_map_of_mem ?_⟩
    rw [hconsequent]
    exact mem_neighbours before behind n

theorem mem_keys_seededFollow_iff {n : String} : n ∈ OrderedMap.keys (g.seededFollow first) ↔
    (∃ p ∈ g.productions, .nonTerminal n ∈ p.consequent) ∨ g.start = some n ∨
      n ∈ g.nonTerminals := by
  have hlisted : n ∈ OrderedMap.keys (Family.declareAll g.nonTerminals []) ↔
      n ∈ g.nonTerminals := by
    rw [Family.mem_keys_declareAll]
    simp [OrderedMap.keys]
  rw [seededFollow, Family.mem_keys_declareAll, mem_target_followInclusions_iff]
  refine or_congr_right ?_
  split
  · next s hs =>
    rw [Family.keys_add (Family.mem_keys_declare.2 (.inl rfl)), Family.mem_keys_declare, hlisted, hs,
      Option.some.injEq, eq_comm]
  · next hs => simp [hs, hlisted]

/-! ### The solutions -/

theorem settles_solveFirst (g : Grammar) : ∃ logs,
    Settles g.firstInclusions g.seededFirst g.solveFirst.1 logs :=
  ⟨_, settles_solution _ _⟩

theorem keys_solveFirst (g : Grammar) :
    OrderedMap.keys g.solveFirst.1 = OrderedMap.keys g.seededFirst := by
  obtain ⟨logs, hs⟩ := g.settles_solveFirst
  refine hs.keys_eq ?_
  intro c hc
  obtain ⟨p, hp, n, -, rfl⟩ := mem_firstInclusions_iff.1 hc
  exact mem_keys_seededFirst_iff.2 (.inr ⟨p, hp, rfl⟩)

theorem isCanonical_solveFirst (g : Grammar) : g.solveFirst.1.IsCanonical := by
  obtain ⟨logs, hs⟩ := g.settles_solveFirst
  exact hs.isCanonical isCanonical_seededFirst

theorem keys_solveFollow (g : Grammar) (first : Family) :
    OrderedMap.keys (g.solveFollow first).1 = OrderedMap.keys (g.seededFollow first) := by
  refine (settles_solution _ _).keys_eq ?_
  intro c hc
  exact mem_keys_seededFollow_iff.2
    (.inl (mem_target_followInclusions_iff.1 (List.mem_map_of_mem hc)))

theorem isCanonical_solveFollow (g : Grammar) (first : Family) :
    (g.solveFollow first).1.IsCanonical :=
  (settles_solution _ _).isCanonical isCanonical_seededFollow

/-- FIRST goes with the names and the productions, in whatever order. -/
theorem get?_solveFirst_congr (hps : ∀ p, p ∈ h.productions ↔ p ∈ g.productions)
    (hnames : ∀ n, n ∈ h.nonTerminals ↔ n ∈ g.nonTerminals) (n : String) :
    OrderedMap.get? n h.solveFirst.1 = OrderedMap.get? n g.solveFirst.1 := by
  refine (isCanonical_solveFirst h).get?_eq (isCanonical_solveFirst g) ?_ ?_ n
  · intro m
    rw [keys_solveFirst, keys_solveFirst, mem_keys_seededFirst_iff, mem_keys_seededFirst_iff]
    simp only [hnames, hps]
  · intro m x
    rw [mem_solveFirst_iff, mem_solveFirst_iff]
    exact begins_congr hps

/-- FOLLOW goes with the names, the productions and the start symbol, in
whatever order. -/
theorem get?_solveFollow_congr (hps : ∀ p, p ∈ h.productions ↔ p ∈ g.productions)
    (hnames : ∀ n, n ∈ h.nonTerminals ↔ n ∈ g.nonTerminals) (hs : h.start = g.start)
    (first : Family) (n : String) :
    OrderedMap.get? n (h.solveFollow first).1 = OrderedMap.get? n (g.solveFollow first).1 := by
  refine (isCanonical_solveFollow h first).get?_eq (isCanonical_solveFollow g first) ?_ ?_ n
  · intro m
    rw [keys_solveFollow, keys_solveFollow, mem_keys_seededFollow_iff, mem_keys_seededFollow_iff]
    simp only [hnames, hps, hs]
  · intro m x
    rw [mem_solveFollow_iff, mem_solveFollow_iff]
    exact follows_congr hps hs fun _ _ => Iff.rfl

/-- What follows in a reachable grammar is never `ε`. -/
theorem Follows.ne_epsilonName (hg : g.Reachable) {n x : String} (hf : g.Follows first n x) :
    x ≠ epsilonName := by
  induction hf with
  | start _ =>
    show endName ≠ epsilonName
    decide
  | last _ _ _ ih => exact ih
  | @terminal p before behind n x hp hc =>
    rintro rfl
    refine hg.onceTagged.notMem_reserved hp (t := epsilonName) ?_ List.mem_cons_self
    rw [hc]
    simp
  | first _ _ _ hne => exact hne
  | empty _ _ _ _ ih => exact ih

/-- **FIRST is the least solution.**  The passes come to an end; the sets they
leave are the least that obey the rules, which is to say that they hold what a
chain of first symbols leads to; and they are the same in whatever order the
productions and the non-terminals stand. -/
theorem solveFirst_isLeast (g : Grammar) :
    (∃ logs, Settles g.firstInclusions g.seededFirst g.solveFirst.1 logs) ∧
    IsLeast {F | g.AdmitsFirst F} (fun n => {x | x ∈ g.solveFirst.1.of n}) ∧
    (∀ n x, x ∈ g.solveFirst.1.of n ↔
      ∃ chain : List String, chain.head? = some n ∧ chain.IsChain g.BeginsWith ∧
        ∃ p ∈ g.productions, chain.getLast? = some p.antecedent ∧
          p.first.isNonTerminal = false ∧ p.first.name = x) ∧
    ∀ h : Grammar, h.productions.Perm g.productions → h.nonTerminals.Perm g.nonTerminals →
      ∀ n, OrderedMap.get? n h.solveFirst.1 = OrderedMap.get? n g.solveFirst.1 := by
  refine ⟨g.settles_solveFirst, ⟨⟨?_, ?_⟩, ?_⟩, ?_, ?_⟩
  · intro p hp hf
    exact mem_solveFirst_iff.2 (.direct hp hf)
  · intro p hp n hf x hx
    exact mem_solveFirst_iff.2 (.through hp hf (mem_solveFirst_iff.1 hx))
  · intro F hF n x hx
    exact (mem_solveFirst_iff.1 hx).mem_of_admitsFirst hF
  · intro n x
    rw [mem_solveFirst_iff, begins_iff_exists_chain]
  · intro h hps hnames n
    exact get?_solveFirst_congr (fun _ => hps.mem_iff) (fun _ => hnames.mem_iff) n

/-- A circle of names, one of them not declared, and the same turned around. -/
theorem solveFirst_isLeast_circle :
    let g : Grammar :=
      { nonTerminals := ["S", "A"], terminals := ["a", "b"]
        productions := [⟨"S", .nonTerminal "A", [.terminal "b"]⟩,
          ⟨"A", .nonTerminal "S", [.terminal "a"]⟩, ⟨"A", .terminal "a", []⟩, ⟨"A", .epsilon, []⟩,
          ⟨"B", .nonTerminal "S", []⟩] }
    let h : Grammar := { g with
      nonTerminals := g.nonTerminals.reverse, productions := g.productions.reverse }
    OrderedMap.get? "B" g.solveFirst.1 = some ["a", epsilonName] ∧
      OrderedMap.get? "B" h.solveFirst.1 = OrderedMap.get? "B" g.solveFirst.1 := by
  intro g h
  obtain ⟨-, -, -, horder⟩ := solveFirst_isLeast g
  exact ⟨by decide +kernel, horder h (List.reverse_perm _) (List.reverse_perm _) "B"⟩

/-- **FOLLOW is the least solution.**  For any FIRST sets the passes come to an
end; the sets they leave are the least that obey the rules; they are the same
in whatever order the productions and the non-terminals stand; and in a
reachable grammar they never hold `ε`. -/
theorem solveFollow_isLeast (g : Grammar) (first : Family) :
    Settles (g.followInclusions first) (g.seededFollow first) (g.solveFollow first).1
      (g.solveFollow first).2 ∧
    IsLeast {F | g.AdmitsFollow first F} (fun n => {x | x ∈ (g.solveFollow first).1.of n}) ∧
    (∀ h : Grammar, h.productions.Perm g.productions → h.nonTerminals.Perm g.nonTerminals →
      h.start = g.start → ∀ n,
        OrderedMap.get? n (h.solveFollow first).1 = OrderedMap.get? n (g.solveFollow first).1) ∧
    (g.Reachable → ∀ n, epsilonName ∉ (g.solveFollow first).1.of n) := by
  refine ⟨settles_solution _ _, ⟨⟨?_, ?_, ?_, ?_, ?_⟩, ?_⟩, ?_, ?_⟩
  · intro s hs
    exact endName_mem_solveFollow hs
  · intro p hp before n hc x hx
    exact mem_solveFollow_of_last hp hc hx
  · intro p hp before n t behind hc
    exact mem_solveFollow_of_terminal hp hc
  · rintro p hp before n m behind hc x ⟨hx, hne⟩
    exact mem_solveFollow_of_first hp hc hx hne
  · intro p hp before n m behind hc he x hx
    exact mem_solveFollow_of_empty hp hc (hasEpsilonProduction_iff.2 he) hx
  · intro F hF n x hx
    exact (mem_solveFollow_iff.1 hx).mem_of_admitsFollow hF
  · intro h hps hnames hs n
    exact get?_solveFollow_congr (fun _ => hps.mem_iff) (fun _ => hnames.mem_iff) hs first n
  · intro hg n hn
    exact (mem_solveFollow_iff.1 hn).ne_epsilonName hg rfl

/-- A list with an optional end, for FIRST sets that are not its own, and the
same list turned around. -/
theorem solveFollow_isLeast_list :
    let items : List ProductionItem := [.sides ⟨"S", ["A", "X"]⟩, .sides ⟨"A", ["a", "A"]⟩,
      .sides ⟨"A", ["a"]⟩, .sides ⟨"X", ["b", "X"]⟩, .sides ⟨"X", []⟩]
    let g : Grammar :=
      { nonTerminals := ["S", "A", "X"], terminals := ["a", "b"], start := some "S"
        productions := [⟨"S", .nonTerminal "A", [.nonTerminal "X"]⟩,
          ⟨"A", .terminal "a", [.nonTerminal "A"]⟩, ⟨"A", .terminal "a", []⟩,
          ⟨"X", .terminal "b", [.nonTerminal "X"]⟩, ⟨"X", .epsilon, []⟩] }
    let h : Grammar := { g with
      nonTerminals := g.nonTerminals.reverse, productions := g.productions.reverse }
    let first : Family := [("X", ["c", epsilonName])]
    build "" "" ["S", "A", "X"] ["a", "b"] items (some "S") = .ok g ∧
      OrderedMap.get? "A" (g.solveFollow first).1 = some [endName, "c"] ∧
      OrderedMap.get? "A" (h.solveFollow first).1 = OrderedMap.get? "A" (g.solveFollow first).1 ∧
      epsilonName ∉ (g.solveFollow first).1.of "A" := by
  intro items g h first
  have hbuild : build "" "" ["S", "A", "X"] ["a", "b"] items (some "S") = .ok g := rfl
  obtain ⟨-, -, horder, hempty⟩ := solveFollow_isLeast g first
  refine ⟨hbuild, by decide +kernel, ?_, hempty (.build hbuild) "A"⟩
  exact horder h (List.reverse_perm _) (List.reverse_perm _) rfl "A"

end Grammar

end PredictiveParsing
