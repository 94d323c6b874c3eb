import Mathlib.Data.List.MinMax
import Mathlib.Order.Nat
import PredictiveParsing.Proofs.Rewriting.Collision
import PredictiveParsing.Proofs.Rewriting.NormalForm

/-
Left factoring comes to an end.

* `Grammar.FactorsTo` — so many rounds, each of which finds a group, lead from
  one grammar to another;
* `FactorsTo.le_of_size` — there are at most as many rounds as the longest
  grouped production has names;
* `exists_factorsTo` — they come to an end: nothing is left to factor, or a name
  is in the way;
* `FactorsTo.factorRounds_eq` — a bound on the rounds that is not reached does
  not matter to what they give;
* `factoring_ends` — how the operation ends, and after how many rounds.

Design notes:

* The grammar as a whole can grow with each round.  What gets smaller is the
  longest production that shares its first name with another one.
-/
namespace PredictiveParsing

namespace Grammar

/-- The length of the longest consequent. -/
def longest (g : Grammar) : Nat :=
  (g.productions.map Production.size).foldr max 0

/-- So many rounds, each of which finds a group, lead from one grammar to the
other. -/
inductive FactorsTo (policy : CollisionPolicy) : Grammar → Nat → Grammar → Prop where
  | refl (g : Grammar) : FactorsTo policy g 0 g
  | round {g h r : Grammar} {n : Nat} (hround : g.leftFactor policy = (.ok true, h))
      (hrest : FactorsTo policy h n r) : FactorsTo policy g (n + 1) r

variable {g r : Grammar} {policy : CollisionPolicy} {n bound : Nat}

theorem size_le_longest {p : Production} (hp : p ∈ g.productions) : p.size ≤ g.longest :=
  List.le_max_of_le (List.mem_map_of_mem hp) (Nat.le_refl _)

theorem longest_le_weight (g : Grammar) : g.longest ≤ g.weight := by
  refine List.max_le_of_forall_le _ _ fun k hk => ?_
  obtain ⟨p, hp, rfl⟩ := List.mem_map.1 hk
  exact size_le_weight hp

/-- A round that finds a group makes what is grouped shorter. -/
theorem size_le_of_leftFactor (hg : g.Rewritable) (he : g.leftFactor policy = (.ok true, r))
    (hsize : ∀ p ∈ g.productions, g.isGrouped p = true → p.size ≤ bound) :
    r.Rewritable ∧ ∃ k, bound = k + 1 ∧
      ∀ p ∈ r.productions, r.isGrouped p = true → p.size ≤ k := by
  rcases leftFactor_outcome hg he with ⟨hfalse, -⟩ | ⟨-, voc, names, sides, hr⟩
  · cases hfalse
  · have hneeds : g.needsLeftFactoring = true := by
      by_contra hn
      rw [leftFactor, if_pos (by simpa using hn)] at he
      cases he
    -- There is a grouped production, and no consequent is empty.
    obtain ⟨p, hp, hgrouped⟩ := List.any_eq_true.1 hneeds
    have hpos : 0 < p.size := Nat.succ_pos _
    have hle := hsize p hp hgrouped
    obtain ⟨k, rfl⟩ : ∃ k, bound = k + 1 := ⟨bound - 1, by omega⟩
    exact ⟨hr.rewritable hg, k, rfl, hr.size_le hg hsize⟩

/-- **There are at most as many rounds as the longest grouped production has
names.** -/
theorem FactorsTo.le_of_size (h : g.FactorsTo policy n r) (hg : g.Rewritable)
    (hsize : ∀ p ∈ g.productions, g.isGrouped p = true → p.size ≤ bound) : n ≤ bound := by
  induction h generalizing bound with
  | refl => exact Nat.zero_le _
  | round hround _ ih =>
    obtain ⟨hr, k, rfl, hk⟩ := size_le_of_leftFactor hg hround hsize
    exact Nat.succ_le_succ (ih hr hk)

/-- A round finds a group, or none, or a name is in the way. -/
theorem leftFactor_ends (hg : g.Rewritable) (hpolicy : policy = .refuse ∨ policy = .rename) :
    (∃ r, g.leftFactor policy = (.ok true, r)) ∨ g.leftFactor policy = (.ok false, g) ∨
      ∃ m a, g.leftFactor policy = (.error (.nameCollision m a), g) := by
  have hok : ∀ {b r}, g.leftFactor policy = (.ok b, r) →
      (∃ r, g.leftFactor policy = (.ok true, r)) ∨ g.leftFactor policy = (.ok false, g) := by
    intro b r he
    rcases leftFactor_outcome hg he with ⟨rfl, -, rfl⟩ | ⟨rfl, -⟩
    · exact .inr he
    · exact .inl ⟨r, he⟩
  obtain ⟨b, r, hrename, hrefuse⟩ := leftFactor_agree hg
  rcases hpolicy with rfl | rfl
  · rcases hrefuse with he | ⟨m, a, left, he, -⟩
    · exact (hok he).imp_right .inl
    · obtain rfl := eq_of_leftFactor_error hg.named he
      exact .inr (.inr ⟨m, a, he⟩)
  · exact (hok hrename).imp_right .inl

/-- **Rounds come to an end.** -/
theorem exists_factorsTo (hg : g.Rewritable) (hpolicy : policy = .refuse ∨ policy = .rename)
    (hsize : ∀ p ∈ g.productions, g.isGrouped p = true → p.size ≤ bound) :
    ∃ n r, g.FactorsTo policy n r ∧ (r.leftFactor policy = (.ok false, r) ∨
      ∃ m a, r.leftFactor policy = (.error (.nameCollision m a), r)) := by
  induction bound generalizing g with
  | zero =>
    rcases leftFactor_ends hg hpolicy with ⟨r, he⟩ | hend
    · obtain ⟨-, k, hk, -⟩ := size_le_of_leftFactor hg he hsize
      cases hk
    · exact ⟨0, g, .refl g, hend⟩
  | succ bound ih =>
    rcases leftFactor_ends hg hpolicy with ⟨h, he⟩ | hend
    · obtain ⟨hh, k, hk, hsize'⟩ := size_le_of_leftFactor hg he hsize
      obtain rfl := Nat.succ.inj hk
      obtain ⟨n, r, hrest, hend⟩ := ih hh hsize'
      exact ⟨n + 1, r, .round he hrest, hend⟩
    · exact ⟨0, g, .refl g, hend⟩

/-- With a bound that is not reached, rounds give what the last of them gives;
whether any found a group is told by their number. -/
theorem FactorsTo.factorRounds_eq (h : g.FactorsTo policy n r)
    (hend : (r.leftFactor policy).1 ≠ .ok true) {rounds : Nat} (hlt : n < rounds) :
    g.factorRounds policy rounds =
      ((r.leftFactor policy).1.map fun _ => decide (0 < n), (r.leftFactor policy).2) := by
  obtain ⟨rounds, rfl⟩ : ∃ k, rounds = k + 1 := ⟨rounds - 1, by omega⟩
  induction h generalizing rounds with
  | refl g =>
    rw [factorRounds]
    rcases hout : g.leftFactor policy with ⟨fault | b, r⟩
    · rfl
    · cases b with
      | false => rfl
      | true => simp [hout] at hend
  | @round g h r n hround hrest ih =>
    obtain ⟨rounds, rfl⟩ : ∃ k, rounds = k + 1 := ⟨rounds - 1, by omega⟩
    have hih := ih hend rounds (by omega)
    rw [factorRounds, hround]
    simp only [hih]
    rcases (r.leftFactor policy).1 with fault | b <;> rfl

/-- **Left factoring comes to an end**, for every grammar whose antecedents are
declared and under either policy.  At most as many rounds find a group as the
longest consequent has symbols; after them nothing is left to factor or a name is
in the way, and with that the operation ends. -/
theorem factoring_ends (hg : g.Reachable) (ha : ∀ p ∈ g.productions, p.antecedent ∈ g.nonTerminals)
    (hpolicy : policy = .refuse ∨ policy = .rename) :
    (∀ n r, g.FactorsTo policy n r → n ≤ g.longest) ∧
    ∃ n r, g.FactorsTo policy n r ∧
      ((r.leftFactor policy = (.ok false, r) ∧
          g.factorFully policy = (.ok (decide (0 < n)), r)) ∨
        ∃ m a, r.leftFactor policy = (.error (.nameCollision m a), r) ∧
          g.factorFully policy = (.error (.nameCollision m a), r)) := by
  have hrewritable := hg.rewritable ha
  have hsize : ∀ p ∈ g.productions, g.isGrouped p = true → p.size ≤ g.longest :=
    fun p hp _ => size_le_longest hp
  refine ⟨fun n r h => h.le_of_size hrewritable hsize, ?_⟩
  obtain ⟨n, r, h, hend⟩ := exists_factorsTo hrewritable hpolicy hsize
  have hlt : n < g.weight + 1 :=
    Nat.lt_succ_of_le ((h.le_of_size hrewritable hsize).trans g.longest_le_weight)
  refine ⟨n, r, h, hend.imp (fun he => ⟨he, ?_⟩) ?_⟩
  · rw [factorFully, h.factorRounds_eq (by simp [he]) hlt, he]
    rfl
  · rintro ⟨m, a, he⟩
    refine ⟨m, a, he, ?_⟩
    rw [factorFully, h.factorRounds_eq (by simp [he]) hlt, he]
    rfl

/-- Two rounds for a common prefix of two symbols, of consequents with three. -/
theorem factoring_ends_prefix :
    let items : List ProductionItem := [.sides ⟨"S", ["a", "b", "c"]⟩, .sides ⟨"S", ["a", "b", "d"]⟩]
    let g : Grammar :=
      { nonTerminals := ["S"], terminals := ["a", "b", "c", "d"], start := some "S"
        productions := [⟨"S", .terminal "a", [.terminal "b", .terminal "c"]⟩,
          ⟨"S", .terminal "a", [.terminal "b", .terminal "d"]⟩] }
    let once : Grammar :=
      { nonTerminals := ["S", "S'"], terminals := ["a", "b", "c", "d"], start := some "S"
        introduced := ["S'"]
        productions := [⟨"S", .terminal "a", [.nonTerminal "S'"]⟩,
          ⟨"S'", .terminal "b", [.terminal "c"]⟩, ⟨"S'", .terminal "b", [.terminal "d"]⟩] }
    let twice : Grammar :=
      { nonTerminals := ["S", "S'", "S''"], terminals := ["a", "b", "c", "d"], start := some "S"
        introduced := ["S'", "S''"]
        productions := [⟨"S", .terminal "a", [.nonTerminal "S'"]⟩,
          ⟨"S'", .terminal "b", [.nonTerminal "S''"]⟩, ⟨"S''", .terminal "c", []⟩,
          ⟨"S''", .terminal "d", []⟩] }
    build "" "" ["S"] ["a", "b", "c", "d"] items (some "S") = .ok g ∧
      (∀ p ∈ g.productions, p.antecedent ∈ g.nonTerminals) ∧ g.longest = 3 ∧
      g.leftFactor .refuse = (.ok true, once) ∧ once.leftFactor .refuse = (.ok true, twice) ∧
      (∀ n r, g.FactorsTo .refuse n r → n ≤ g.longest) ∧
      ∃ n r, g.FactorsTo .refuse n r ∧ g.factorFully .refuse = (.ok (decide (0 < n)), r) ∧
        r = twice := by
  intro items g once twice
  have hbuild : build "" "" ["S"] ["a", "b", "c", "d"] items (some "S") = .ok g := rfl
  have ha : ∀ p ∈ g.productions, p.antecedent ∈ g.nonTerminals := by decide
  have hfull : g.factorFully .refuse = (.ok true, twice) := by decide +kernel
  obtain ⟨hle, n, r, h, ⟨-, he⟩ | ⟨m, a, -, he⟩⟩ := factoring_ends (.build hbuild) ha (.inl rfl)
  · exact ⟨hbuild, ha, by decide, by decide +kernel, by decide +kernel, hle, n, r, h, he,
      (Prod.mk.inj (he.symm.trans hfull)).2⟩
  · rw [hfull] at he
    cases he

end Grammar

end PredictiveParsing
