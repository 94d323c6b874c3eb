import PredictiveParsing.Proofs.Rewriting.LeftRecursion

/-
Left factoring keeps what every non-terminal generates.

* `factoredAll_spec` — the sides of a round, with the names given to groups;
* `Factored` — the rules after a round;
* `Factored.reading`, `yields_of_factored`, `factored_yields` — they yield what
  the old ones do;
* `Round`, `leftFactor_outcome` — a round, and what the operation gives;
* `Round.yields_iff` — a round keeps what every non-terminal yields;
* `factorRounds_of_round`, `factorRounds_spec` — what rounds keep, several of
  them keep.

Design notes:

* `Factored.Reading` reads a word of a new non-terminal as one that the rest of
  some production of its group yields.
-/
namespace PredictiveParsing

namespace Grammar

variable {g r : Grammar}

/-! ### Groups -/

theorem mem_group_iff {p q : Production} :
    q ∈ g.group p ↔ q ∈ g.productions ∧ q.first.isEpsilon = false ∧ groupKey q = groupKey p := by
  simp [group]

/-- A group belongs to a key, whichever of its productions is named. -/
theorem factoredGroup_congr {p q : Production} (h : groupKey p = groupKey q) (n : String) :
    g.factoredGroup p n = g.factoredGroup q n := by
  have hgroup : g.group p = g.group q := by rw [group, group, h]
  obtain ⟨ha, hf⟩ := Prod.mk.inj h
  rw [factoredGroup, factoredGroup, groupRests, groupRests, hgroup, ha, hf]

theorem isEpsilon_of_isGrouped {p : Production} (h : g.isGrouped p = true) :
    p.first.isEpsilon = false := by
  simp only [isGrouped, Bool.and_eq_true, Bool.not_eq_true'] at h
  exact h.1

/-! ### Naming the groups -/

/-- The sides that stand for some productions after a round: those without a
group as they are, and each group factored with a name of its own, unless it was
dealt with before. -/
structure Divides (g : Grammar) (done : List (String × String)) (ps : List Production)
    (names : List ((String × String) × String)) (sides : List Sides) : Prop where
  nodup : (names.map (·.1)).Nodup
  notMem_done : ∀ e ∈ names, e.1 ∉ done
  exists_key : ∀ e ∈ names, ∃ p ∈ ps, g.isGrouped p = true ∧ groupKey p = e.1
  exists_name : ∀ p ∈ ps, g.isGrouped p = true →
    groupKey p ∈ done ∨ ∃ n, (groupKey p, n) ∈ names
  mem_sides_iff : ∀ s, s ∈ sides ↔ (∃ p ∈ ps, g.isGrouped p = false ∧ s = p.sides) ∨
    ∃ p ∈ ps, g.isGrouped p = true ∧ ∃ n, (groupKey p, n) ∈ names ∧ s ∈ g.factoredGroup p n

section

variable {done : List (String × String)} {p : Production} {ps : List Production}
  {names : List ((String × String) × String)} {sides : List Sides}

theorem divides_nil : g.Divides done [] [] [] :=
  ⟨List.nodup_nil, by simp, by simp, by simp, by simp⟩

theorem Divides.exists_key_cons (h : g.Divides done ps names sides) :
    ∀ e ∈ names, ∃ q ∈ p :: ps, g.isGrouped q = true ∧ groupKey q = e.1 := by
  intro e he
  obtain ⟨q, hq, hkey⟩ := h.exists_key e he
  exact ⟨q, List.mem_cons_of_mem _ hq, hkey⟩

/-- A name in use belongs to the group of some production further on. -/
theorem Divides.mem_sides_of_factored (h : g.Divides done ps names sides) {s : Sides}
    {n : String} (hn : (groupKey p, n) ∈ names) (hs : s ∈ g.factoredGroup p n) : s ∈ sides := by
  obtain ⟨q, hq, hgrouped, hkey⟩ := h.exists_key _ hn
  exact (h.mem_sides_iff s).2
    (.inr ⟨q, hq, hgrouped, n, hkey ▸ hn, by rwa [factoredGroup_congr hkey]⟩)

/-- One production more, without a group. -/
theorem Divides.cons_ungrouped (h : g.Divides done ps names sides) (hp : g.isGrouped p = false) :
    g.Divides done (p :: ps) names (p.sides :: sides) := by
  refine ⟨h.nodup, h.notMem_done, h.exists_key_cons, ?_, fun s => ?_⟩
  · rw [List.forall_mem_cons]
    exact ⟨fun hgrouped => by simp [hp] at hgrouped, h.exists_name⟩
  · rw [List.mem_cons, List.exists_mem_cons_iff, List.exists_mem_cons_iff]
    constructor
    · rintro (rfl | hs)
      · exact .inl (.inl ⟨hp, rfl⟩)
      · exact ((h.mem_sides_iff s).1 hs).imp .inr .inr
    · rintro ((⟨-, rfl⟩ | hs) | ⟨hgrouped, -⟩ | hs)
      · exact .inl rfl
      · exact .inr ((h.mem_sides_iff s).2 (.inl hs))
      · simp [hp] at hgrouped
      · exact .inr ((h.mem_sides_iff s).2 (.inr hs))

/-- One production more, of a group that was dealt with. -/
theorem Divides.cons_done (h : g.Divides done ps names sides) (hp : g.isGrouped p = true)
    (hdone : groupKey p ∈ done) : g.Divides done (p :: ps) names sides := by
  refine ⟨h.nodup, h.notMem_done, h.exists_key_cons, ?_, fun s => ?_⟩
  · rw [List.forall_mem_cons]
    exact ⟨fun _ => .inl hdone, h.exists_name⟩
  · rw [List.exists_mem_cons_iff, List.exists_mem_cons_iff]
    constructor
    · exact fun hs => ((h.mem_sides_iff s).1 hs).imp .inr .inr
    · rintro ((⟨hnot, -⟩ | hs) | ⟨-, n, hn, hs⟩ | hs)
      · simp [hp] at hnot
      · exact (h.mem_sides_iff s).2 (.inl hs)
      · exact h.mem_sides_of_factored hn hs
      · exact (h.mem_sides_iff s).2 (.inr hs)

/-- One production more, the first of its group. -/
theorem Divides.cons_named (h : g.Divides (groupKey p :: done) ps names sides)
    (hp : g.isGrouped p = true) (hnew : groupKey p ∉ done) (n : String) :
    g.Divides done (p :: ps) ((groupKey p, n) :: names) (g.factoredGroup p n ++ sides) := by
  refine ⟨?_, ?_, ?_, ?_, fun s => ?_⟩
  · rw [List.map_cons, List.nodup_cons]
    refine ⟨fun hm => ?_, h.nodup⟩
    obtain ⟨e, he, hkey⟩ := List.mem_map.1 hm
    exact h.notMem_done e he (hkey ▸ List.mem_cons_self)
  · rw [List.forall_mem_cons]
    exact ⟨hnew, fun e he hd => h.notMem_done e he (List.mem_cons_of_mem _ hd)⟩
  · rw [List.forall_mem_cons]
    exact ⟨⟨p, List.mem_cons_self, hp, rfl⟩, h.exists_key_cons⟩
  · rw [List.forall_mem_cons]
    refine ⟨fun _ => .inr ⟨n, List.mem_cons_self⟩, fun q hq hgrouped => ?_⟩
    rcases h.exists_name q hq hgrouped with hd | ⟨m, hm⟩
    · rcases List.mem_cons.1 hd with hd | hd
      · exact .inr ⟨n, hd ▸ List.mem_cons_self⟩
      · exact .inl hd
    · exact .inr ⟨m, List.mem_cons_of_mem _ hm⟩
  · rw [List.mem_append, List.exists_mem_cons_iff, List.exists_mem_cons_iff]
    constructor
    · rintro (hs | hs)
      · exact .inr (.inl ⟨hp, n, List.mem_cons_self, hs⟩)
      · rcases (h.mem_sides_iff s).1 hs with hs | ⟨q, hq, hgrouped, m, hm, hs⟩
        · exact .inl (.inr hs)
        · exact .inr (.inr ⟨q, hq, hgrouped, m, List.mem_cons_of_mem _ hm, hs⟩)
    · rintro ((⟨hnot, -⟩ | hs) | ⟨-, m, hm, hs⟩ | ⟨q, hq, hgrouped, m, hm, hs⟩)
      · simp [hp] at hnot
      · exact .inr ((h.mem_sides_iff s).2 (.inl hs))
      · rcases List.mem_cons.1 hm with hm | hm
        · obtain rfl := (Prod.mk.inj hm).2
          exact .inl hs
        · exact .inr (h.mem_sides_of_factored hm hs)
      · rcases List.mem_cons.1 hm with hm | hm
        · obtain ⟨hkey, rfl⟩ := Prod.mk.inj hm
          exact .inl (by rwa [factoredGroup_congr hkey.symm])
        · exact .inr ((h.mem_sides_iff s).2 (.inr ⟨q, hq, hgrouped, m, hm, hs⟩))

end

/-- What is made of the first of some productions in a round that goes well: it
is kept, passed over since its group has been dealt with, or stands for its group
under a new name. -/
theorem factoredAll_cons {policy : CollisionPolicy} {done : List (String × String)}
    {voc voc' : Extension} {p : Production} {ps : List Production} {sides : List Sides}
    (he : g.factoredAll policy done voc (p :: ps) = .ok (voc', sides)) :
    (g.isGrouped p = false ∧ ∃ rest, g.factoredAll policy done voc ps = .ok (voc', rest) ∧
      sides = p.sides :: rest) ∨
    (g.isGrouped p = true ∧ groupKey p ∈ done ∧
      g.factoredAll policy done voc ps = .ok (voc', sides)) ∨
    (g.isGrouped p = true ∧ groupKey p ∉ done ∧ ∃ n rest,
      g.freshName policy voc.taken p.antecedent = .ok n ∧
      g.factoredAll policy (groupKey p :: done)
        ⟨insertAfter p.antecedent n voc.nonTerminals, n :: voc.taken,
          voc.primes ++ [(p.antecedent, n)]⟩ ps = .ok (voc', rest) ∧
      sides = g.factoredGroup p n ++ rest) := by
  rw [factoredAll] at he
  split at he
  · next hp =>
    cases hrest : g.factoredAll policy done voc ps with
    | error fault => simp [hrest, bind, Except.bind] at he
    | ok result =>
      simp only [hrest, bind, Except.bind, pure, Except.pure] at he
      obtain ⟨rfl, rfl⟩ := Prod.mk.inj (Except.ok.inj he)
      exact .inl ⟨by simpa using hp, _, rfl, rfl⟩
  · next hp =>
    have hgrouped : g.isGrouped p = true := by simpa using hp
    split at he
    · next hdone => exact .inr (.inl ⟨hgrouped, hdone, he⟩)
    · next hdone =>
      cases hf : g.freshName policy voc.taken p.antecedent with
      | error fault => simp [hf, bind, Except.bind] at he
      | ok n =>
        simp only [hf, bind, Except.bind] at he
        cases hrest : g.factoredAll policy (groupKey p :: done)
            ⟨insertAfter p.antecedent n voc.nonTerminals, n :: voc.taken,
              voc.primes ++ [(p.antecedent, n)]⟩ ps with
        | error fault => simp [hrest] at he
        | ok result =>
          simp only [hrest, pure, Except.pure] at he
          obtain ⟨rfl, rfl⟩ := Prod.mk.inj (Except.ok.inj he)
          exact .inr (.inr ⟨hgrouped, hdone, n, _, rfl, hrest, rfl⟩)

/-- **What a round makes of the productions.** -/
theorem factoredAll_spec {policy : CollisionPolicy} {done : List (String × String)}
    {voc voc' : Extension} {ps : List Production} {sides : List Sides}
    (h : Extension.Sound g voc) (hn : g.Named) (hps : ∀ p ∈ ps, p.antecedent ∈ g.nonTerminals)
    (he : g.factoredAll policy done voc ps = .ok (voc', sides)) :
    Extension.Sound g voc' ∧ ∃ names, g.Divides done ps names sides ∧
      voc'.primes = voc.primes ++ names.map fun e => (e.1.1, e.2) := by
  induction ps generalizing done voc sides with
  | nil =>
    obtain ⟨rfl, rfl⟩ := Prod.mk.inj (Except.ok.inj he)
    exact ⟨h, [], divides_nil, by simp⟩
  | cons p ps ih =>
    rw [List.forall_mem_cons] at hps
    rcases factoredAll_cons he with ⟨hp, rest, hrest, rfl⟩ | ⟨hp, hdone, hrest⟩ |
      ⟨hp, hnew, n, rest, hf, hrest, rfl⟩
    · obtain ⟨hsound, names, hdivides, hprimes⟩ := ih h hps.2 hrest
      exact ⟨hsound, names, hdivides.cons_ungrouped hp, hprimes⟩
    · obtain ⟨hsound, names, hdivides, hprimes⟩ := ih h hps.2 hrest
      exact ⟨hsound, names, hdivides.cons_done hp hdone, hprimes⟩
    -- The first production of its group names it.
    · obtain ⟨hsound, names, hdivides, hprimes⟩ := ih (h.add hn hps.1 hf) hps.2 hrest
      refine ⟨hsound, _, hdivides.cons_named hp hnew n, ?_⟩
      rw [hprimes]
      simp [groupKey]

/-! ### The new rules -/

/-- The rules after a round, with the names given to groups. -/
inductive Factored (g : Grammar) (names : List ((String × String) × String)) :
    String → List String → Prop where
  | kept {p : Production} (hp : p ∈ g.productions) (h : g.isGrouped p = false) :
      Factored g names p.antecedent p.word
  | head {p : Production} {n : String} (hp : p ∈ g.productions) (h : g.isGrouped p = true)
      (hn : (groupKey p, n) ∈ names) : Factored g names p.antecedent [p.first.name, n]
  | rest {p q : Production} {n : String} (hp : p ∈ g.productions) (h : g.isGrouped p = true)
      (hn : (groupKey p, n) ∈ names) (hq : q ∈ g.group p) : Factored g names n q.tailWord

/-- What a group leaves behind its first symbol. -/
theorem exists_mem_groupRests_iff {p : Production} {v : List String} :
    (∃ r ∈ g.groupRests p, (r.map Symbol.name).filter (· ≠ epsilonName) = v) ↔
      ∃ q ∈ g.group p, q.tailWord = v := by
  have hword : ∀ q : Production,
      ((if q.rest.isEmpty then [Symbol.epsilon] else q.rest).map Symbol.name).filter
        (· ≠ epsilonName) = q.tailWord := by
    intro q
    split
    · next h =>
      rw [Production.tailWord, List.isEmpty_iff.1 h]
      rfl
    · rfl
  simp only [groupRests, List.mem_eraseDups, List.mem_map]
  constructor
  · rintro ⟨_, ⟨q, hq, rfl⟩, rfl⟩
    exact ⟨q, hq, (hword q).symm⟩
  · rintro ⟨q, hq, rfl⟩
    exact ⟨_, ⟨q, hq, rfl⟩, hword q⟩

theorem exists_mem_divides_iff (hg : g.Closed) {names : List ((String × String) × String)}
    {sides : List Sides} (h : g.Divides [] g.productions names sides)
    (hne : ∀ e ∈ names, e.2 ≠ epsilonName) {n : String} {v : List String} :
    (∃ s ∈ sides, s.antecedent = n ∧ s.word = v) ↔ g.Factored names n v := by
  have hhead : ∀ {p : Production} {m}, p ∈ g.productions → g.isGrouped p = true →
      (groupKey p, m) ∈ names → Sides.word ⟨p.antecedent, [p.first.name, m]⟩ = [p.first.name, m] := by
    intro p m hp hgrouped hm
    have hfirst := hg.marksEpsilon.first_ne hp (isEpsilon_of_isGrouped hgrouped)
    have hlast := hne _ hm
    simp only [Sides.word]
    rw [List.filter_cons_of_pos (by simpa using hfirst), List.filter_cons_of_pos (by simpa using hlast),
      List.filter_nil]
  constructor
  · rintro ⟨s, hs, rfl, rfl⟩
    rcases (h.mem_sides_iff s).1 hs with ⟨p, hp, hungrouped, rfl⟩ | ⟨p, hp, hgrouped, m, hm, hs⟩
    · exact .kept hp hungrouped
    · rcases List.mem_cons.1 hs with rfl | hs
      · rw [hhead hp hgrouped hm]
        exact .head hp hgrouped hm
      · obtain ⟨r, hr, rfl⟩ := List.mem_map.1 hs
        obtain ⟨q, hq, hv⟩ := exists_mem_groupRests_iff.1 ⟨r, hr, rfl⟩
        rw [Sides.word, ← hv]
        exact .rest hp hgrouped hm hq
  · intro hv
    cases hv with
    | @kept p hp hungrouped =>
      exact ⟨p.sides, (h.mem_sides_iff _).2 (.inl ⟨p, hp, hungrouped, rfl⟩), rfl, rfl⟩
    | @head p m hp hgrouped hm =>
      refine ⟨_, (h.mem_sides_iff _).2 (.inr ⟨p, hp, hgrouped, m, hm, List.mem_cons_self⟩), rfl, ?_⟩
      exact hhead hp hgrouped hm
    | @rest p q _ hp hgrouped hm hq =>
      obtain ⟨r, hr, hv⟩ := exists_mem_groupRests_iff.2 ⟨q, hq, rfl⟩
      refine ⟨⟨n, r.map Symbol.name⟩, (h.mem_sides_iff _).2 (.inr ⟨p, hp, hgrouped, n, hm, ?_⟩),
        rfl, hv⟩
      exact List.mem_cons_of_mem _ (List.mem_map_of_mem hr)

/-! ### What the new rules yield -/

/-- How a word of the factored grammar is read in the old one: as a word of the
same name or, if the name is new, as one that the rest of some production of its
group yields. -/
structure Factored.Reading (g : Grammar) (names : List ((String × String) × String)) (n : String)
    (x : List String) : Prop where
  yields : n ∈ g.nonTerminals ∨ n ∈ g.terminals → g.Yields [n] x
  exists_rest : ∀ k, (k, n) ∈ names → ∃ q ∈ g.productions, q.first.isEpsilon = false ∧
    groupKey q = k ∧ g.Yields q.tailWord x

section

variable {names : List ((String × String) × String)} {voc : Extension} (hg : g.Closed)
  (hvoc : Extension.Sound g voc) (hnames : voc.primes.map (·.2) = names.map (·.2))

theorem Factored.Reading.yields_of_spells {u x : List String}
    (hs : Spells (Factored.Reading g names) u x)
    (hu : ∀ b ∈ u, b ∈ g.nonTerminals ∨ b ∈ g.terminals) : g.Yields u x :=
  Grammar.yields_of_spells (hs.mono fun b hb _ hx => hx.yields (hu b hb))

include hvoc hnames

theorem notMem_of_mem_names {k : String × String} {n : String} (hn : (k, n) ∈ names) :
    n ∉ g.nonTerminals ∧ n ∉ g.terminals := by
  refine hvoc.notMem n ?_
  rw [hnames]
  exact List.mem_map_of_mem hn

theorem key_unique {k k' : String × String} {n : String} (h : (k, n) ∈ names)
    (h' : (k', n) ∈ names) : k = k' :=
  congrArg Prod.fst (List.inj_on_of_nodup_map (hnames ▸ hvoc.nodup) h h' rfl)

theorem Factored.Reading.of_old {a : String} {x : List String} (ha : a ∈ g.nonTerminals)
    (hx : g.Yields [a] x) : Factored.Reading g names a x :=
  ⟨fun _ => hx, fun _ hk => absurd ha (notMem_of_mem_names hvoc hnames hk).1⟩

include hg

/-- **The new rules keep to the reading.** -/
theorem Factored.reading {n : String} {v x : List String} (h : g.Factored names n v)
    (hx : Spells (Factored.Reading g names) v x) : Factored.Reading g names n x := by
  cases h with
  | @kept p hp =>
    have hr : g.Rule p.antecedent p.word := ⟨p, hp, rfl, rfl⟩
    exact .of_old hvoc hnames (hg.antecedent_mem p hp)
      (yields_of_rule hr (Reading.yields_of_spells hx (hg.rule_declared hr)))
  | @head p m hp hgrouped hm =>
    obtain ⟨y, z, rfl, hy, hz⟩ := hx
    have hε := hg.marksEpsilon.first_ne hp (isEpsilon_of_isGrouped hgrouped)
    have hfirst : g.Yields [p.first.name] y :=
      hy.yields ((hg.name_declared p hp _ List.mem_cons_self).resolve_left hε)
    -- The rest may be that of another production of the group: it takes the place of `p`.
    obtain ⟨q, hq, hqε, hkey, htail⟩ := (spells_singleton.1 hz).exists_rest _ hm
    obtain ⟨hqa, hqf⟩ := Prod.mk.inj hkey
    refine .of_old hvoc hnames (hg.antecedent_mem p hp) (yields_of_rule ⟨q, hq, hqa, rfl⟩ ?_)
    rw [Production.word_eq_cons (hg.marksEpsilon.first_ne hq hqε), hqf]
    exact hfirst.append htail
  | @rest p q _ hp hgrouped hm hq =>
    have hfresh := notMem_of_mem_names hvoc hnames hm
    obtain ⟨hqp, hqε, hkey⟩ := mem_group_iff.1 hq
    refine ⟨fun hd => absurd hd (not_or.2 hfresh), fun k hk => ⟨q, hqp, hqε, ?_, ?_⟩⟩
    · rw [hkey]
      exact key_unique hvoc hnames hm hk
    · exact Reading.yields_of_spells hx (hg.tailWord_declared hqp)

omit hnames

variable (hnts : r.nonTerminals = voc.nonTerminals)
  (hrule : ∀ n v, r.Rule n v ↔ g.Factored names n v)

include hnts hrule

include hnames in
/-- **What the factored grammar yields, the old one yields.** -/
theorem yields_of_factored {a : String} (ha : a ∈ g.nonTerminals) {w : List String}
    (hy : r.Yields [a] w) : g.Yields [a] w := by
  have hs : Spells (Factored.Reading g names) [a] w := by
    refine hy.spells (fun n hn => ?_)
      fun n v x hr hx => ((hrule n v).1 hr).reading hg hvoc hnames hx
    rw [hnts, hvoc.mem_nonTerminals_iff, hnames, not_or] at hn
    exact ⟨fun _ => .keep hn.1 .nil, fun k hk => absurd (List.mem_map_of_mem hk) hn.2⟩
  exact (spells_singleton.1 hs).yields (.inl ha)

/-- **What the old grammar yields, the factored one yields.** -/
theorem factored_yields (hall : ∀ p ∈ g.productions, g.isGrouped p = true →
      ∃ n, (groupKey p, n) ∈ names) {a : String} (ha : a ∈ g.nonTerminals) {w : List String}
    (hy : g.Yields [a] w) : r.Yields [a] w := by
  refine hy.of_rules (D := fun n => n ∈ g.nonTerminals ∨ n ∈ g.terminals) ?_ ?_ ?_ (by simp [ha])
  · intro n hd hn
    rw [hnts]
    exact hvoc.notMem_of_declared hd hn
  · exact fun n v hr => hg.rule_declared hr
  · rintro _ _ x ⟨p, hp, rfl, rfl⟩ hx
    cases hgrouped : g.isGrouped p with
    | false => exact yields_of_rule ((hrule _ _).2 (.kept hp hgrouped)) hx
    | true =>
      obtain ⟨n, hn⟩ := hall p hp hgrouped
      have hε := isEpsilon_of_isGrouped hgrouped
      rw [Production.word_eq_cons (hg.marksEpsilon.first_ne hp hε)] at hx
      obtain ⟨y, z, rfl, hy, hz⟩ := yields_cons_iff.1 hx
      have hrest : r.Rule n p.tailWord :=
        (hrule _ _).2 (.rest hp hgrouped hn (mem_group_iff.2 ⟨hp, hε, rfl⟩))
      -- What was behind the first symbol is now behind the new name.
      refine yields_of_rule ((hrule _ _).2 (.head hp hgrouped hn)) ?_
      exact yields_cons_iff.2 ⟨y, z, rfl, hy, yields_of_rule hrest hz⟩

end

/-! ### The operations -/

/-- The sides of a round write declared names. -/
theorem divides_declared {names : List ((String × String) × String)} {sides : List Sides}
    {voc : Extension} (hg : g.Closed) (hvoc : Extension.Sound g voc)
    (hnames : voc.primes.map (·.2) = names.map (·.2))
    (h : g.Divides [] g.productions names sides) {s : Sides} (hs : s ∈ sides) :
    s.Declared voc.nonTerminals g.terminals := by
  rcases (h.mem_sides_iff s).1 hs with ⟨p, hp, -, rfl⟩ | ⟨p, hp, -, m, hm, hs⟩
  · exact hvoc.declared hg hp (.inl rfl) fun n hn => .inr (.inl hn)
  · have hnew : m ∈ voc.primes.map (·.2) := by
      rw [hnames]
      exact List.mem_map_of_mem hm
    rcases List.mem_cons.1 hs with rfl | hs
    · refine hvoc.declared hg hp (.inl rfl) fun n hn => ?_
      rcases List.mem_cons.1 hn with rfl | hn
      · exact .inr (.inl List.mem_cons_self)
      · exact .inr (.inr (List.mem_singleton.1 hn ▸ hnew))
    · -- A rest is that of some production of the group, not of the one it is named by.
      obtain ⟨rest, hrest, rfl⟩ := List.mem_map.1 hs
      simp only [groupRests, List.mem_eraseDups, List.mem_map] at hrest
      obtain ⟨q, hq, rfl⟩ := hrest
      refine hvoc.declared hg (mem_group_iff.1 hq).1 (.inr hnew) fun n hn => ?_
      split at hn
      · exact .inl (List.mem_singleton.1 hn)
      · exact .inr (.inl (List.mem_cons_of_mem _ hn))

/-- The grammar `r` is `g` after a round, in which groups were given names. -/
structure Round (g : Grammar) (policy : CollisionPolicy) (r : Grammar) (voc : Extension)
    (names : List ((String × String) × String)) (sides : List Sides) : Prop where
  factored : g.factoredAll policy [] g.unextended g.productions = .ok (voc, sides)
  sound : Extension.Sound g voc
  primes_eq : voc.primes = names.map fun e => (e.1.1, e.2)
  divides : g.Divides [] g.productions names sides
  eq_rewritten : r = g.rewritten voc.nonTerminals (voc.primes.map (·.2)) sides

section

variable {policy : CollisionPolicy} {voc : Extension}
  {names : List ((String × String) × String)} {sides : List Sides}

theorem Round.names_eq (hr : g.Round policy r voc names sides) :
    voc.primes.map (·.2) = names.map (·.2) := by
  rw [hr.primes_eq, List.map_map]
  rfl

theorem Round.nonTerminals_eq (hr : g.Round policy r voc names sides) :
    r.nonTerminals = voc.nonTerminals := by
  rw [hr.eq_rewritten, nonTerminals_rewritten]

theorem Round.terminals_eq (hr : g.Round policy r voc names sides) :
    r.terminals = g.terminals := by
  rw [hr.eq_rewritten, terminals_rewritten]

theorem Round.start_eq (hr : g.Round policy r voc names sides) : r.start = g.start := by
  rw [hr.eq_rewritten, start_rewritten]

theorem Round.productions_eq (hr : g.Round policy r voc names sides) :
    r.productions = sides.map r.tag := by
  rw [hr.eq_rewritten, productions_rewritten]

theorem Round.closed (hr : g.Round policy r voc names sides) (hg : g.Closed) : r.Closed := by
  rw [hr.eq_rewritten]
  exact closed_rewritten hr.sound _ hg fun s hs =>
    divides_declared hg hr.sound hr.names_eq hr.divides hs

end

/-- Nothing is factored only if there is no group. -/
theorem needsLeftFactoring_of_kept {policy : CollisionPolicy}
    (he : g.leftFactor policy = (.ok false, r)) : g.needsLeftFactoring = false ∧ r = g := by
  rcases leftFactor_cases policy g with ⟨hnone, h⟩ | ⟨_, h⟩ | ⟨_, _, -, h⟩
  · rw [h] at he
    exact ⟨hnone, (Prod.mk.inj he).2.symm⟩
  · rw [h] at he
    cases he
  · rw [h] at he
    split at he <;> cases he

/-- There was nothing to factor, or there was a round. -/
theorem leftFactor_outcome (hg : g.Rewritable) {policy : CollisionPolicy} {factored : Bool}
    (he : g.leftFactor policy = (.ok factored, r)) :
    (factored = false ∧ g.needsLeftFactoring = false ∧ r = g) ∨
      factored = true ∧ ∃ voc names sides, g.Round policy r voc names sides := by
  rcases leftFactor_cases policy g with ⟨hnone, h⟩ | ⟨_, h⟩ | ⟨voc, sides, hall, h⟩
  · rw [h] at he
    cases he
    exact .inl ⟨rfl, hnone, rfl⟩
  · rw [h] at he
    cases he
  · obtain ⟨hvoc, names, hdivides, hnames⟩ :=
      factoredAll_spec (sound_unextended hg.named) hg.named hg.antecedent_mem hall
    rw [h, adopt_of_sound hvoc _ hg.named] at he
    cases he
    exact .inr ⟨rfl, voc, names, sides, hall, hvoc, hnames, hdivides, rfl⟩

section

variable {policy : CollisionPolicy} {voc : Extension}
  {names : List ((String × String) × String)} {sides : List Sides}

/-- The name given to a group is new. -/
theorem Round.mem_primes (hr : g.Round policy r voc names sides) {k : String × String}
    {n : String} (hn : (k, n) ∈ names) : n ∈ voc.primes.map (·.2) := by
  rw [hr.names_eq]
  exact List.mem_map_of_mem hn

theorem Round.mem_nonTerminals (hr : g.Round policy r voc names sides) {n : String}
    (hn : n ∈ g.nonTerminals) : n ∈ r.nonTerminals := by
  rw [hr.nonTerminals_eq]
  exact hr.sound.mem_of_mem hn

/-- **A round of left factoring keeps what every non-terminal yields.** -/
theorem Round.yields_iff (hr : g.Round policy r voc names sides) (hg : g.Closed) {a : String}
    (ha : a ∈ g.nonTerminals) {w : List String} : r.Yields [a] w ↔ g.Yields [a] w := by
  have hne : ∀ e ∈ names, e.2 ≠ epsilonName := fun _ he =>
    hr.sound.ne_epsilonName (hr.mem_primes he)
  have hrule : ∀ n v, r.Rule n v ↔ g.Factored names n v := fun n v =>
    (rule_iff_of_productions_eq hr.productions_eq).trans (exists_mem_divides_iff hg hr.divides hne)
  constructor
  · exact yields_of_factored hg hr.sound hr.names_eq hr.nonTerminals_eq hrule ha
  · refine factored_yields hg hr.sound hr.nonTerminals_eq hrule (fun p hp hgrouped => ?_) ha
    exact (hr.divides.exists_name p hp hgrouped).resolve_left (by simp)

end

/-- What every round keeps, several of them keep. -/
theorem factorRounds_of_round {policy : CollisionPolicy} {P : Grammar → Prop}
    (hround : ∀ g r voc names sides, g.Closed → g.Round policy r voc names sides → P g → P r)
    (hg : g.Closed) (hP : P g) {rounds : Nat} {factored : Bool}
    (he : g.factorRounds policy rounds = (.ok factored, r)) : r.Closed ∧ P r := by
  induction rounds generalizing g factored with
  | zero =>
    cases he
    exact ⟨hg, hP⟩
  | succ rounds ih =>
    have hstep : ∀ {g' b}, g.leftFactor policy = (.ok b, g') → g'.Closed ∧ P g' := by
      intro g' b hl
      rcases leftFactor_outcome hg.rewritable hl with ⟨-, -, rfl⟩ | ⟨-, voc, names, sides, hr⟩
      · exact ⟨hg, hP⟩
      · exact ⟨hr.closed hg, hround g g' voc names sides hg hr hP⟩
    rw [factorRounds] at he
    split at he
    · next g' hl =>
      obtain ⟨hg', hP'⟩ := hstep hl
      split at he
      · next hrest =>
        cases he
        exact ih hg' hP' hrest
      · next hfailed => exact absurd he (hfailed _ _)
    · exact hstep he

theorem factorRounds_spec (hg : g.Closed) {policy : CollisionPolicy} {rounds : Nat}
    {factored : Bool} (he : g.factorRounds policy rounds = (.ok factored, r)) :
    r.Closed ∧ (∀ n ∈ g.nonTerminals, n ∈ r.nonTerminals) ∧
      ∀ a ∈ g.nonTerminals, ∀ w, r.Yields [a] w ↔ g.Yields [a] w := by
  refine factorRounds_of_round (P := fun h => (∀ n ∈ g.nonTerminals, n ∈ h.nonTerminals) ∧
    ∀ a ∈ g.nonTerminals, ∀ w, h.Yields [a] w ↔ g.Yields [a] w) ?_ hg
    ⟨fun _ hn => hn, fun _ _ _ => Iff.rfl⟩ he
  rintro h r voc names sides hh hr ⟨hmem, hyields⟩
  refine ⟨fun n hn => hr.mem_nonTerminals (hmem n hn), fun a ha w => ?_⟩
  rw [hr.yields_iff hh (hmem a ha), hyields a ha]

end Grammar

end PredictiveParsing
