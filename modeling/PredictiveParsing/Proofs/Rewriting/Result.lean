import PredictiveParsing.Proofs.Rewriting.LeftFactoring

/-
What a rewriting that goes well writes.

Languages aside, results have to be known production by production: where the
parts of an old production are, and what is named by the new names.

* `Removal.Writes`, `Removal.mem_sides_iff` — the productions of a grammar whose
  left recursion was removed, case by case;
* `Round.Writes`, `Round.mem_sides_iff` — those of a grammar after a round;
* `Round.rewritable` — after a round there can be another one;
* `Extension.Sound.notMem_names` — a new name is none of those that occurred.
-/
namespace PredictiveParsing

namespace Grammar

variable {g r : Grammar} {policy : CollisionPolicy} {voc : Extension}
  {names : List ((String × String) × String)} {sides : List Sides}

/-! ### What is written -/

/-- The sides that a removal writes. -/
inductive Removal.Writes (g : Grammar) (voc : Extension) : Sides → Prop where
  | kept {p : Production} (hp : p ∈ g.productions)
      (hm : OrderedMap.get? p.antecedent voc.primes = none) (hl : p.isLeftRecursive = false) :
      Removal.Writes g voc p.sides
  | tail {p : Production} {m : String} (hp : p ∈ g.productions)
      (hm : OrderedMap.get? p.antecedent voc.primes = some m) (hl : p.isLeftRecursive = true)
      (hne : p.rest ≠ []) : Removal.Writes g voc ⟨m, p.rest.map Symbol.name ++ [m]⟩
  | base {p : Production} {m : String} (hp : p ∈ g.productions)
      (hm : OrderedMap.get? p.antecedent voc.primes = some m) (hl : p.isLeftRecursive = false) :
      Removal.Writes g voc (p.basePart m)
  | bare {p : Production} {m : String} (hp : p ∈ g.productions)
      (hm : OrderedMap.get? p.antecedent voc.primes = some m)
      (hb : g.hasBase p.antecedent = false) : Removal.Writes g voc ⟨p.antecedent, [m]⟩
  | close {p : Production} {m : String} (hp : p ∈ g.productions)
      (hm : OrderedMap.get? p.antecedent voc.primes = some m) :
      Removal.Writes g voc ⟨m, [epsilonName]⟩

/-- The antecedent of a left recursive production was given a new name. -/
theorem Removal.exists_prime (hr : g.Removal r voc) {p : Production}
    (hp : p ∈ g.productions) (hl : p.isLeftRecursive = true) :
    ∃ m, OrderedMap.get? p.antecedent voc.primes = some m := by
  have hkey : p.antecedent ∈ OrderedMap.keys voc.primes := by
    rw [hr.keys_eq]
    exact mem_leftRecursive_iff.2 ⟨p, hp, hl, rfl⟩
  exact Option.isSome_iff_exists.1 (OrderedMap.get?_isSome.2 hkey)

theorem Removal.mem_sides_iff (hr : g.Removal r voc) {s : Sides} :
    s ∈ g.withoutRecursionAll voc.primes g.productions ↔ Removal.Writes g voc s := by
  rw [mem_withoutRecursionAll]
  constructor
  · rintro ⟨p, hp, ⟨hm, rfl⟩ | ⟨m, hm, ⟨hl, hs⟩ | ⟨hl, rfl⟩ | hs⟩⟩
    · -- Without a new name, the antecedent is not left recursive.
      refine .kept hp hm ?_
      by_contra hl
      obtain ⟨m, hsome⟩ := hr.exists_prime hp (by simpa using hl)
      rw [hm] at hsome
      cases hsome
    · by_cases hne : p.rest = []
      · simp [Production.recursiveTail, hne] at hs
      · rw [recursiveTail_of_ne_nil hne] at hs
        obtain rfl := List.mem_singleton.1 hs
        exact .tail hp hm hl hne
    · exact .base hp hm hl
    · rw [closing, List.mem_append, List.mem_singleton] at hs
      rcases hs with hs | rfl
      · split at hs
        · simp at hs
        · next hb =>
          obtain rfl := List.mem_singleton.1 hs
          exact .bare hp hm (by simpa using hb)
      · exact .close hp hm
  · intro hs
    cases hs with
    | @kept p hp hm => exact ⟨p, hp, .inl ⟨hm, rfl⟩⟩
    | @tail p m hp hm hl hne =>
      refine ⟨p, hp, .inr ⟨m, hm, .inl ⟨hl, ?_⟩⟩⟩
      rw [recursiveTail_of_ne_nil hne]
      exact List.mem_singleton_self _
    | @base p m hp hm hl => exact ⟨p, hp, .inr ⟨m, hm, .inr (.inl ⟨hl, rfl⟩)⟩⟩
    | @bare p m hp hm hb =>
      refine ⟨p, hp, .inr ⟨m, hm, .inr (.inr ?_)⟩⟩
      rw [closing, hb]
      exact List.mem_cons_self
    | @close p m hp hm =>
      exact ⟨p, hp, .inr ⟨m, hm, .inr (.inr (List.mem_append_right _ (List.mem_singleton_self _)))⟩⟩

/-- The sides that a round writes, with the names given to groups. -/
inductive Round.Writes (g : Grammar) (names : List ((String × String) × String)) :
    Sides → Prop where
  | kept {p : Production} (hp : p ∈ g.productions) (h : g.isGrouped p = false) :
      Round.Writes g names p.sides
  | head {p : Production} {n : String} (hp : p ∈ g.productions) (h : g.isGrouped p = true)
      (hn : (groupKey p, n) ∈ names) : Round.Writes g names ⟨p.antecedent, [p.first.name, n]⟩
  | rest {p : Production} {n : String} (hp : p ∈ g.productions) (h : g.isGrouped p = true)
      (hn : (groupKey p, n) ∈ names) :
      Round.Writes g names ⟨n, Sides.orEpsilon (p.rest.map Symbol.name)⟩

theorem isGrouped_of_mem_group {p q : Production} (hp : g.isGrouped p = true) (hq : q ∈ g.group p) :
    g.isGrouped q = true := by
  obtain ⟨-, hε, hkey⟩ := mem_group_iff.1 hq
  have hgroup : g.group q = g.group p := by rw [group, group, hkey]
  rw [isGrouped, Bool.and_eq_true] at hp ⊢
  exact ⟨by simp [hε], hgroup ▸ hp.2⟩

theorem Round.mem_sides_iff (hr : g.Round policy r voc names sides) {s : Sides} :
    s ∈ sides ↔ Round.Writes g names s := by
  have hrest : ∀ p : Production, (if p.rest.isEmpty then [Symbol.epsilon] else p.rest).map
      Symbol.name = Sides.orEpsilon (p.rest.map Symbol.name) := by
    intro p
    cases p.rest <;> rfl
  rw [hr.divides.mem_sides_iff]
  constructor
  · rintro (⟨p, hp, h, rfl⟩ | ⟨p, hp, h, n, hn, hs⟩)
    · exact .kept hp h
    · rcases List.mem_cons.1 hs with rfl | hs
      · exact .head hp h hn
      · -- A rest is that of some production of the group, which has the same key.
        obtain ⟨rest, hmem, rfl⟩ := List.mem_map.1 hs
        simp only [groupRests, List.mem_eraseDups, List.mem_map] at hmem
        obtain ⟨q, hq, rfl⟩ := hmem
        obtain ⟨hqp, -, hkey⟩ := mem_group_iff.1 hq
        rw [hrest]
        exact .rest hqp (isGrouped_of_mem_group h hq) (hkey ▸ hn)
  · intro hs
    cases hs with
    | @kept p hp h => exact .inl ⟨p, hp, h, rfl⟩
    | @head p n hp h hn => exact .inr ⟨p, hp, h, n, hn, List.mem_cons_self⟩
    | @rest p n hp h hn =>
      refine .inr ⟨p, hp, h, n, hn, List.mem_cons_of_mem _ ?_⟩
      -- A production is in its own group, so its rest is written.
      have hself : p ∈ g.group p := mem_group_iff.2 ⟨hp, isEpsilon_of_isGrouped h, rfl⟩
      rw [← hrest, List.mem_map]
      refine ⟨_, ?_, rfl⟩
      simp only [groupRests, List.mem_eraseDups, List.mem_map]
      exact ⟨p, hself, rfl⟩

/-- What was rewritten in a round can be rewritten again. -/
theorem Round.rewritable (hr : g.Round policy r voc names sides) (hg : g.Rewritable) :
    r.Rewritable := by
  rw [hr.eq_rewritten]
  refine rewritable_rewritten hr.sound _ hg.named fun s hs => ?_
  cases hr.mem_sides_iff.1 hs with
  | @kept p hp => exact hr.sound.mem_of_mem (hg.antecedent_mem p hp)
  | @head p n hp => exact hr.sound.mem_of_mem (hg.antecedent_mem p hp)
  | @rest p n _ _ hn => exact hr.sound.mem_of_new (hr.mem_primes hn)

/-! ### New names -/

/-- A new name is not one of those that occurred. -/
theorem Extension.Sound.notMem_names (hvoc : Extension.Sound g voc) (hg : g.Closed) {n : String} (hn : n ∈ voc.primes.map (·.2)) {p : Production}
    (hp : p ∈ g.productions) : n ∉ p.names ∧ n ≠ p.antecedent := by
  obtain ⟨hnt, ht⟩ := hvoc.notMem n hn
  constructor
  · intro hm
    rcases hg.name_declared p hp n hm with he | hd | hd
    · exact hvoc.ne_epsilonName hn he
    · exact hnt hd
    · exact ht hd
  · rintro rfl
    exact hnt (hg.antecedent_mem p hp)

end Grammar

end PredictiveParsing
