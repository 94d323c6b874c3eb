import PredictiveParsing.Proofs.Rewriting.Normalization
import PredictiveParsing.Proofs.Rewriting.Result

/-
Normalization reaches a normal form, and leaves it alone.

* `Grammar.IsNormal` — no antecedent begins one of its productions, and none
  has two that begin with the same name, unless that is `ε`;
* `normalize_eq_self_iff` — the grammars that a normalization hands back;
* `Removal.first_ne`, `Round.first_ne` — no rewriting makes a production begin
  with its antecedent;
* `count_factoredAll_le`, `Round.size_le` — after a round, what is grouped has
  been handed on to new names and is shorter;
* `needsLeftFactoring_factorRounds` — so as many rounds as the longest
  consequent has names are enough;
* `isNormal_of_normalize`, `normalize_idempotent` — the result of a normalization
  is in normal form, and so it is handed back.

Design notes:

* A round is judged by keys, one for each production.  Those of old antecedents
  occur once after it; all others belong to new names, whose productions are
  the rests of old ones.
-/
namespace PredictiveParsing

/-- The antecedent and the name in front, unless that is `ε`. -/
def Sides.key? (s : Sides) : Option (String × String) :=
  match s.names with
  | [] => none
  | n :: _ => if n = epsilonName then none else some (s.antecedent, n)

theorem Sides.key?_eq_some_iff {s : Sides} {k : String × String} :
    s.key? = some k ↔ ∃ n ns, s.names = n :: ns ∧ n ≠ epsilonName ∧ k = (s.antecedent, n) := by
  rw [key?]
  cases hs : s.names with
  | nil => simp
  | cons n ns =>
    by_cases hn : n = epsilonName
    · simp [hn]
    · simp [hn, eq_comm]

theorem Production.key?_sides (p : Production) :
    p.sides.key? = if p.first.name = epsilonName then none else some (p.antecedent, p.first.name) :=
  rfl

namespace Grammar

/-- The keys of the productions that do not begin with `ε`. -/
def keys (g : Grammar) : List (String × String) :=
  g.productions.filterMap fun p => p.sides.key?

/-- **The normal form**: no production begins with its antecedent, and two of
one antecedent only begin with the same name if that is `ε`. -/
structure IsNormal (g : Grammar) : Prop where
  first_ne : ∀ p ∈ g.productions, p.first.name ≠ p.antecedent
  firsts_differ : g.productions.Pairwise fun p q =>
    p.antecedent = q.antecedent → p.first.name = q.first.name → p.first.name = epsilonName

variable {g r : Grammar} {policy : CollisionPolicy}

/-! ### Keys -/

theorem nodup_keys_iff : g.keys.Nodup ↔ g.productions.Pairwise fun p q =>
    p.antecedent = q.antecedent → p.first.name = q.first.name → p.first.name = epsilonName := by
  rw [keys, List.Nodup, List.pairwise_filterMap]
  refine List.Pairwise.iff fun p q => ?_
  rw [Production.key?_sides, Production.key?_sides]
  by_cases hp : p.first.name = epsilonName
  · simp [hp]
  · by_cases hq : q.first.name = epsilonName
    · simp [hp, hq]
    · simp [hp, hq]

/-- A production is grouped if its key occurs twice. -/
theorem MarksEpsilon.isGrouped_iff (hε : g.MarksEpsilon) {p : Production}
    (hp : p ∈ g.productions) :
    g.isGrouped p = true ↔ ∃ k, p.sides.key? = some k ∧ 1 < g.keys.count k := by
  by_cases hpε : p.first.name = epsilonName
  · simp [isGrouped, (hε p hp).2 hpε, Production.key?_sides, hpε]
  · -- The length of a group is the number of productions with its key.
    have hcount : (g.group p).length = g.keys.count (groupKey p) := by
      rw [group, ← List.countP_eq_length_filter, keys, List.count_filterMap]
      refine List.countP_congr fun q hq => ?_
      rw [Production.key?_sides]
      by_cases hqε : q.first.name = epsilonName
      · simp [(hε q hq).2 hqε, hqε]
      · have hne : q.first.isEpsilon = false := by simpa using (hε q hq).not.2 hqε
        simp [hne, hqε, groupKey]
    have hne : p.first.isEpsilon = false := by simpa using (hε p hp).not.2 hpε
    have hkey : p.sides.key? = some (groupKey p) := by
      rw [Production.key?_sides, if_neg hpε]
      rfl
    rw [isGrouped, hne, hcount, hkey]
    simp

theorem MarksEpsilon.needsLeftFactoring_iff (hε : g.MarksEpsilon) :
    g.needsLeftFactoring = false ↔ g.keys.Nodup := by
  rw [needsLeftFactoring, List.any_eq_false, List.nodup_iff_count_le_one]
  constructor
  · intro h k
    by_contra hk
    have hmem : k ∈ g.keys := List.count_pos_iff.1 (by omega)
    obtain ⟨p, hp, hkey⟩ := List.mem_filterMap.1 hmem
    exact h p hp ((hε.isGrouped_iff hp).2 ⟨k, hkey, by omega⟩)
  · intro h p hp hgrouped
    obtain ⟨k, -, hk⟩ := (hε.isGrouped_iff hp).1 hgrouped
    have := h k
    omega

/-! ### What is handed back -/

theorem leftRecursive_eq_nil_iff :
    g.leftRecursive = [] ↔ ∀ p ∈ g.productions, p.first.name ≠ p.antecedent := by
  rw [List.eq_nil_iff_forall_not_mem]
  constructor
  · intro h p hp he
    exact h p.antecedent (mem_leftRecursive_iff.2 ⟨p, hp, by simpa [Production.isLeftRecursive], rfl⟩)
  · intro h a ha
    obtain ⟨p, hp, hr, -⟩ := mem_leftRecursive_iff.1 ha
    exact h p hp (by simpa [Production.isLeftRecursive] using hr)

theorem MarksEpsilon.isNormal_iff (hε : g.MarksEpsilon) :
    g.IsNormal ↔ g.leftRecursive = [] ∧ g.needsLeftFactoring = false := by
  rw [leftRecursive_eq_nil_iff, hε.needsLeftFactoring_iff, nodup_keys_iff]
  exact ⟨fun h => ⟨h.1, h.2⟩, fun h => ⟨h.1, h.2⟩⟩

/-- Tags do not matter to the normal form. -/
theorem isNormal_copy_iff : g.copy.IsNormal ↔ g.IsNormal := by
  have hfirst : (∀ p ∈ g.copy.productions, p.first.name ≠ p.antecedent) ↔
      ∀ p ∈ g.productions, p.first.name ≠ p.antecedent := by
    simp [copy, retagged]
  have hpairs : g.copy.keys = g.keys := by
    rw [keys, keys, copy, retagged, List.filterMap_map]
    refine List.filterMap_congr fun p _ => ?_
    simp [Production.key?_sides]
  constructor
  · rintro ⟨h₁, h₂⟩
    refine ⟨hfirst.1 h₁, nodup_keys_iff.1 ?_⟩
    rw [← hpairs]
    exact nodup_keys_iff.2 h₂
  · rintro ⟨h₁, h₂⟩
    refine ⟨hfirst.2 h₁, nodup_keys_iff.1 ?_⟩
    rw [hpairs]
    exact nodup_keys_iff.2 h₂

/-- Rounds that find no group leave the grammar alone, and only they do. -/
theorem factorRounds_succ_eq_false_iff {rounds : Nat} :
    g.factorRounds policy (rounds + 1) = (.ok false, r) ↔ g.needsLeftFactoring = false ∧ r = g := by
  constructor
  · intro he
    rw [factorRounds] at he
    split at he
    · split at he
      · cases he
      · next hfailed => exact absurd he (hfailed _ _)
    · exact needsLeftFactoring_of_kept he
  · rintro ⟨h, rfl⟩
    have hl : r.leftFactor policy = (.ok false, r) := by simp [leftFactor, h]
    rw [factorRounds, hl]

/-- **A normalization hands back exactly the grammars in normal form**, under
every policy. -/
theorem normalize_eq_self_iff : g.normalize policy = .ok ⟨g, false, false⟩ ↔ g.IsNormal := by
  have ht : g.copy.Tagged := tagged_retagged g g.nonTerminals
  rw [← isNormal_copy_iff, ht.marksEpsilon.isNormal_iff]
  constructor
  · intro he
    obtain ⟨removed, factored, work, done, hr, hf, hn⟩ := normalize_cases he
    -- Neither rewriting can have found anything to do.
    obtain ⟨rfl, rfl⟩ : removed = false ∧ factored = false := by
      rcases hn with hn | ⟨hremoved, hfactored, -⟩
      · obtain ⟨-, hremoved, hfactored⟩ := Normalization.mk.inj hn
        exact ⟨hremoved.symm, hfactored.symm⟩
      · exact ⟨hremoved, hfactored⟩
    obtain ⟨hrec, rfl⟩ := leftRecursive_eq_nil_of_kept hr
    exact ⟨hrec, (factorRounds_succ_eq_false_iff.1 hf).1⟩
  · rintro ⟨hr, hf⟩
    have he : g.copy.eliminateLeftRecursion policy = (.ok false, g.copy) := by
      rw [eliminateLeftRecursion, hr]
    rw [normalize, he]
    dsimp only
    rw [factorFully, factorRounds_succ_eq_false_iff.2 ⟨hf, rfl⟩]
    rfl

/-! ### No production begins with its antecedent -/

theorem name_first_tag (g : Grammar) (s : Sides) :
    (g.tag s).first.name = s.names.headD epsilonName := by
  have h := names_tag g s
  rw [Production.names, Production.consequent, List.map_cons] at h
  cases hs : s.names with
  | nil =>
    rw [hs] at h
    exact (List.cons.inj h).1
  | cons n ns =>
    rw [hs] at h
    exact (List.cons.inj h).1

theorem first_ne_of_productions_eq {sides : List Sides} (hps : r.productions = sides.map r.tag)
    (hs : ∀ s ∈ sides, s.names.headD epsilonName ≠ s.antecedent) :
    ∀ p ∈ r.productions, p.first.name ≠ p.antecedent := by
  intro p hp
  rw [hps] at hp
  obtain ⟨s, hm, rfl⟩ := List.mem_map.1 hp
  rw [name_first_tag, tag, Production.antecedent_ofSymbols]
  exact hs s hm

theorem notMem_of_notMem_names {p : Production} {n : String} (h : n ∉ p.names) :
    n ∉ p.rest.map Symbol.name :=
  fun hm => h (List.mem_cons_of_mem _ hm)

variable {voc : Extension} {names : List ((String × String) × String)} {sides : List Sides}

/-- Nothing that a removal writes begins with its antecedent. -/
theorem Removal.first_ne (hr : g.Removal r voc) (hg : g.Closed) :
    ∀ p ∈ r.productions, p.first.name ≠ p.antecedent := by
  refine first_ne_of_productions_eq hr.productions_eq fun s hs => ?_
  cases hr.mem_sides_iff.1 hs with
  | @kept p hp _ hl =>
    have hne : p.first.name ≠ p.antecedent := by simpa [Production.isLeftRecursive] using hl
    exact hne
  | @tail p m hp hm hl hne =>
    obtain ⟨hnames, -⟩ := hr.sound.notMem_names hg (mem_of_get?_primes hm) hp
    have hrest := notMem_of_notMem_names hnames
    cases hpr : p.rest with
    | nil => exact absurd hpr hne
    | cons b bs =>
      intro hb
      exact hrest (by simp [hpr, show b.name = m from hb])
  | @base p m hp hm hl =>
    obtain ⟨-, hne⟩ := hr.sound.notMem_names hg (mem_of_get?_primes hm) hp
    rw [Production.basePart, Production.yield]
    split
    · exact hne
    · simpa [Production.consequent, Production.isLeftRecursive] using hl
  | @bare p m hp hm => exact (hr.sound.notMem_names hg (mem_of_get?_primes hm) hp).2
  | @close p m hp hm => exact (hr.sound.ne_epsilonName (mem_of_get?_primes hm)).symm

/-- A round keeps it that way: the rests it splits off go to new names. -/
theorem Round.first_ne (hr : g.Round policy r voc names sides) (hg : g.Closed)
    (hfirst : ∀ p ∈ g.productions, p.first.name ≠ p.antecedent) :
    ∀ p ∈ r.productions, p.first.name ≠ p.antecedent := by
  refine first_ne_of_productions_eq hr.productions_eq fun s hs => ?_
  cases hr.mem_sides_iff.1 hs with
  | @kept p hp => exact hfirst p hp
  | @head p n hp => exact hfirst p hp
  | @rest p n hp _ hn =>
    have hnew := hr.mem_primes hn
    have hrest := notMem_of_notMem_names (hr.sound.notMem_names hg hnew hp).1
    cases hpr : p.rest with
    | nil => exact (hr.sound.ne_epsilonName hnew).symm
    | cons b bs =>
      intro hb
      exact hrest (by simp [hpr, show b.name = n from hb])

/-! ### Rounds come to an end -/

theorem count_key?_cons (s : Sides) (sides : List Sides) (k : String × String) :
    ((s :: sides).filterMap Sides.key?).count k =
      (sides.filterMap Sides.key?).count k + if s.key? = some k then 1 else 0 := by
  rw [List.filterMap_cons]
  cases hs : s.key? with
  | none => simp
  | some l => simp [List.count_cons]

/-- A grouped production has the key of its group, which occurs twice. -/
theorem MarksEpsilon.key?_of_isGrouped (hε : g.MarksEpsilon) {p : Production}
    (hp : p ∈ g.productions) (hgrouped : g.isGrouped p = true) :
    p.sides.key? = some (groupKey p) ∧ 1 < g.keys.count (groupKey p) := by
  obtain ⟨k, hkey, hk⟩ := (hε.isGrouped_iff hp).1 hgrouped
  obtain ⟨n, ns, hnames, -, rfl⟩ := Sides.key?_eq_some_iff.1 hkey
  obtain rfl : p.first.name = n := (List.cons.inj hnames).1
  exact ⟨hkey, hk⟩

/-- Keys of old names in what stands for a group: only that of the group, in
front. -/
theorem count_factoredGroup {p : Production} (hε : p.first.name ≠ epsilonName) {n : String} {k : String × String}
    (hn : k.1 ≠ n) : ((g.factoredGroup p n).filterMap Sides.key?).count k =
      if groupKey p = k then 1 else 0 := by
  have hrests : (((g.groupRests p).map fun r => (⟨n, r.map Symbol.name⟩ : Sides)).filterMap
      Sides.key?).count k = 0 := by
    rw [List.count_eq_zero]
    intro hk
    obtain ⟨s, hs, hkey⟩ := List.mem_filterMap.1 hk
    obtain ⟨rest, -, rfl⟩ := List.mem_map.1 hs
    obtain ⟨_, _, -, -, rfl⟩ := Sides.key?_eq_some_iff.1 hkey
    exact hn rfl
  have hhead : (⟨p.antecedent, [p.first.name, n]⟩ : Sides).key? = some (groupKey p) := if_neg hε
  rw [factoredGroup, count_key?_cons, hrests, hhead]
  simp

/-- In the sides of a round, the key of an old antecedent occurs once if it is
that of a group, unless the group was dealt with, and as often as before
otherwise. -/
theorem count_factoredAll_le (hg : g.Rewritable) {done : List (String × String)}
    {voc' : Extension} {ps : List Production}
    (hvoc : Extension.Sound g voc) (hps : ∀ p ∈ ps, p ∈ g.productions)
    (he : g.factoredAll policy done voc ps = .ok (voc', sides)) {k : String × String}
    (hk : k.1 ∈ g.nonTerminals) :
    (sides.filterMap Sides.key?).count k ≤
      if 1 < g.keys.count k then if k ∈ done then 0 else 1
      else ((ps.map Production.sides).filterMap Sides.key?).count k := by
  induction ps generalizing done voc sides with
  | nil =>
    obtain ⟨-, rfl⟩ := Prod.mk.inj (Except.ok.inj he)
    simp
  | cons p ps ih =>
    rw [List.forall_mem_cons] at hps
    rw [List.map_cons, count_key?_cons]
    rcases factoredAll_cons he with ⟨hp, rest, hrest, rfl⟩ | ⟨hp, hdone, hrest⟩ |
      ⟨hp, hnew, n, rest, hf, hrest, rfl⟩
    · -- The key of a production without a group occurs once at most.
      have hih := ih hvoc hps.2 hrest
      have hnot : p.sides.key? = some k → ¬ 1 < g.keys.count k := by
        intro hkey hgt
        have hgrouped := (hg.marksEpsilon.isGrouped_iff hps.1).2 ⟨k, hkey, hgt⟩
        simp [hp] at hgrouped
      rw [count_key?_cons]
      by_cases hgt : 1 < g.keys.count k
      · have hne : p.sides.key? ≠ some k := fun hkey => hnot hkey hgt
        simpa [hgt, hne] using hih
      · simp only [if_neg hgt] at hih ⊢
        omega
    · -- A group that was dealt with writes nothing more.
      have hih := ih hvoc hps.2 hrest
      by_cases hgt : 1 < g.keys.count k
      · simpa [hgt] using hih
      · simp only [if_neg hgt] at hih ⊢
        omega
    · have hsound := hvoc.add hg.named (hg.antecedent_mem p hps.1) hf
      have hih := ih hsound hps.2 hrest
      obtain ⟨hkey, hcount⟩ := hg.marksEpsilon.key?_of_isGrouped hps.1 hp
      have hn : k.1 ≠ n := by
        rintro rfl
        exact (hsound.notMem k.1 (by simp)).1 hk
      have hε := hg.marksEpsilon.first_ne hps.1 (isEpsilon_of_isGrouped hp)
      rw [List.filterMap_append, List.count_append, count_factoredGroup hε hn]
      by_cases hgt : 1 < g.keys.count k
      · rw [if_pos hgt] at hih ⊢
        by_cases hpk : groupKey p = k
        · -- The group gets its name here, and is dealt with further on.
          rw [if_pos (by simp [hpk])] at hih
          rw [if_pos hpk, if_neg (hpk ▸ hnew)]
          omega
        · have hmem : k ∈ groupKey p :: done ↔ k ∈ done := by simp [Ne.symm hpk]
          simp only [hmem] at hih
          rw [if_neg hpk]
          omega
      · have hpk : groupKey p ≠ k := fun he => hgt (he ▸ hcount)
        rw [if_neg hgt] at hih ⊢
        rw [if_neg hpk]
        omega

theorem key?_sides_tag (g : Grammar) (s : Sides) : (g.tag s).sides.key? = s.key? := by
  rw [Production.sides, names_tag, tag, Production.antecedent_ofSymbols, Sides.key?, Sides.key?]
  cases s.names <;> rfl

theorem keys_of_productions_eq (hps : r.productions = sides.map r.tag) :
    r.keys = sides.filterMap Sides.key? := by
  rw [keys, hps, List.filterMap_map]
  exact List.filterMap_congr fun s _ => key?_sides_tag r s

/-- **A round makes grouped productions shorter**: those that it leaves are
rests of those there were. -/
theorem Round.size_le (hr : g.Round policy r voc names sides) (hg : g.Rewritable) {bound : Nat}
    (hsize : ∀ p ∈ g.productions, g.isGrouped p = true → p.size ≤ bound + 1) :
    ∀ p ∈ r.productions, r.isGrouped p = true → p.size ≤ bound := by
  intro p hp hgrouped
  obtain ⟨k, hkey, hk⟩ := ((hr.rewritable hg).marksEpsilon.isGrouped_iff hp).1 hgrouped
  rw [keys_of_productions_eq hr.productions_eq] at hk
  rw [hr.productions_eq] at hp
  obtain ⟨s, hs, rfl⟩ := List.mem_map.1 hp
  rw [key?_sides_tag] at hkey
  obtain ⟨n, _, -, -, rfl⟩ := id (Sides.key?_eq_some_iff.1 hkey)
  -- The keys of old antecedents occur once.
  have hnew : s.antecedent ∉ g.nonTerminals := by
    intro ha
    have hle := count_factoredAll_le hg (sound_unextended hg.named) (fun _ h => h) hr.factored
      (k := (s.antecedent, n)) ha
    have hkeys : (g.productions.map Production.sides).filterMap Sides.key? = g.keys := by
      rw [List.filterMap_map]
      rfl
    rw [hkeys] at hle
    split at hle
    · simp only [List.not_mem_nil, if_false] at hle
      omega
    · omega
  cases hr.mem_sides_iff.1 hs with
  | @kept q hq => exact absurd (hg.antecedent_mem q hq) hnew
  | @head q n hq => exact absurd (hg.antecedent_mem q hq) hnew
  | @rest q n hq hgroup =>
    have hle := hsize q hq hgroup
    cases hqr : q.rest with
    | nil =>
      rw [hqr] at hkey
      cases hkey
    | cons b bs =>
      have hsize : (r.tag ⟨n, (b :: bs).map Symbol.name⟩).size = q.size - 1 := by
        have hlength := congrArg List.length (names_tag r ⟨n, (b :: bs).map Symbol.name⟩)
        rw [Production.names, List.length_map] at hlength
        rw [Production.size, hlength, Production.size, Production.consequent, hqr]
        simp [Sides.orEpsilon]
      show (r.tag ⟨n, (b :: bs).map Symbol.name⟩).size ≤ bound
      omega

/-- **As many rounds as the longest grouped production has names are enough.** -/
theorem needsLeftFactoring_factorRounds (hg : g.Rewritable) {rounds : Nat} {factored : Bool}
    (hsize : ∀ p ∈ g.productions, g.isGrouped p = true → p.size ≤ rounds)
    (he : g.factorRounds policy rounds = (.ok factored, r)) : r.needsLeftFactoring = false := by
  induction rounds generalizing g factored with
  | zero =>
    -- No consequent is empty, so nothing is grouped.
    cases he
    rw [needsLeftFactoring, List.any_eq_false]
    intro p hp hgrouped
    have hle := hsize p hp hgrouped
    simp [Production.size, Production.consequent] at hle
  | succ rounds ih =>
    rw [factorRounds] at he
    split at he
    · next g' hl =>
      split at he
      · next hrest =>
        cases he
        rcases leftFactor_outcome hg hl with ⟨hfalse, -⟩ | ⟨-, voc, names, sides, hr⟩
        · cases hfalse
        · exact ih (hr.rewritable hg) (hr.size_le hg hsize) hrest
      · next hfailed => exact absurd he (hfailed _ _)
    · next hnot =>
      cases factored with
      | true => exact absurd he (hnot _)
      | false =>
        obtain ⟨hneeds, rfl⟩ := needsLeftFactoring_of_kept he
        exact hneeds

theorem size_le_weight {p : Production} (hp : p ∈ g.productions) : p.size ≤ g.weight := by
  have hmono : ∀ (ps : List Production) (n : Nat),
      n ≤ ps.foldl (fun total p => total + p.size) n ∧
        ∀ p ∈ ps, p.size ≤ ps.foldl (fun total p => total + p.size) n := by
    intro ps
    induction ps with
    | nil => simp
    | cons q ps ih =>
      intro n
      obtain ⟨hle, hall⟩ := ih (n + q.size)
      rw [List.foldl_cons]
      refine ⟨by omega, List.forall_mem_cons.2 ⟨by omega, hall⟩⟩
  exact (hmono g.productions 0).2 p hp

/-! ### The operation -/

/-- **The result of a normalization is in normal form.** -/
theorem isNormal_of_normalize (hg : g.copy.Closed) {n : Normalization}
    (he : g.normalize policy = .ok n) : n.grammar.IsNormal := by
  obtain ⟨removed, factored, work, done, hr, hf, rfl | ⟨-, -, rfl⟩⟩ := normalize_cases he
  · have hwork : work.Closed ∧ ∀ p ∈ work.productions, p.first.name ≠ p.antecedent := by
      rcases eliminateLeftRecursion_outcome hg.rewritable hr with
        ⟨-, hnone, rfl⟩ | ⟨-, voc, hremoval⟩
      · exact ⟨hg, leftRecursive_eq_nil_iff.1 hnone⟩
      · exact ⟨hremoval.closed hg, hremoval.first_ne hg⟩
    -- The weight of the grammar is enough rounds, and none makes a production begin with its
    -- antecedent again.
    obtain ⟨hdone, hfirst⟩ := factorRounds_of_round
      (P := fun g => ∀ p ∈ g.productions, p.first.name ≠ p.antecedent)
      (fun g r voc names sides hg hr h => hr.first_ne hg h) hwork.1 hwork.2 hf
    have hneeds := needsLeftFactoring_factorRounds hwork.1.rewritable
      (fun p hp _ => Nat.le_succ_of_le (size_le_weight hp)) hf
    exact hdone.marksEpsilon.isNormal_iff.2 ⟨leftRecursive_eq_nil_iff.2 hfirst, hneeds⟩
  · exact normalize_eq_self_iff.1 he

/-- **Normalization reaches a normal form and is idempotent.**  In the result
no production begins with its antecedent, and two productions of one antecedent
only begin with the same name if that is `ε`; normalizing the result again, under
any policy, hands it back unchanged. -/
theorem normalize_idempotent (hg : g.Reachable)
    (hvalid : Diagnostic.hasErrors g.problems = false) {n : Normalization}
    (he : g.normalize policy = .ok n) :
    (∀ p ∈ n.grammar.productions, p.first.name ≠ p.antecedent) ∧
    (n.grammar.productions.Pairwise fun p q =>
      p.antecedent = q.antecedent → p.first.name = q.first.name → p.first.name = epsilonName) ∧
    ∀ policy', n.grammar.normalize policy' = .ok ⟨n.grammar, false, false⟩ := by
  have hnormal := isNormal_of_normalize (closed_copy hg.named (wellFormed_iff.1 hvalid)) he
  exact ⟨hnormal.first_ne, hnormal.firsts_differ, fun _ => normalize_eq_self_iff.2 hnormal⟩

/-- Recursive productions with a common prefix: what is factored belongs to the
name that the removal gave. -/
theorem normalize_idempotent_tails :
    let items : List ProductionItem := [.sides ⟨"S", ["S", "a", "b"]⟩, .sides ⟨"S", ["S", "a", "c"]⟩,
      .sides ⟨"S", ["d"]⟩]
    let g : Grammar :=
      { nonTerminals := ["S"], terminals := ["a", "b", "c", "d"], start := some "S"
        productions := [⟨"S", .nonTerminal "S", [.terminal "a", .terminal "b"]⟩,
          ⟨"S", .nonTerminal "S", [.terminal "a", .terminal "c"]⟩, ⟨"S", .terminal "d", []⟩] }
    let r : Grammar :=
      { nonTerminals := ["S", "S'", "S''"], terminals := ["a", "b", "c", "d"]
        start := some "S", introduced := ["S'", "S''"]
        productions := [⟨"S'", .terminal "a", [.nonTerminal "S''"]⟩,
          ⟨"S''", .terminal "b", [.nonTerminal "S'"]⟩, ⟨"S''", .terminal "c", [.nonTerminal "S'"]⟩,
          ⟨"S", .terminal "d", [.nonTerminal "S'"]⟩, ⟨"S'", .epsilon, []⟩] }
    build "" "" ["S"] ["a", "b", "c", "d"] items (some "S") = .ok g ∧
      g.normalize .refuse = .ok ⟨r, true, true⟩ ∧
      ∀ policy, r.normalize policy = .ok ⟨r, false, false⟩ := by
  intro items g r
  have hbuild : build "" "" ["S"] ["a", "b", "c", "d"] items (some "S") = .ok g := rfl
  have hvalid : Diagnostic.hasErrors g.problems = false := by decide +kernel
  have hnormalize : g.normalize .refuse = .ok ⟨r, true, true⟩ := by decide +kernel
  exact ⟨hbuild, hnormalize, (normalize_idempotent (.build hbuild) hvalid hnormalize).2.2⟩

end Grammar

end PredictiveParsing
