import PredictiveParsing.Proofs.Rewriting.Result

/-
What becomes of a name that is in the way.

A rewriting that needs a name which the user declared fails, or passes over the
name; no other failure is possible, and a failure changes nothing.

* `Grammar.Collision` — a declared name is in the way of one that a rewriting
  would give to an antecedent;
* `Grammar.Agree` — two runs, of which one refuses collisions and the other
  does not, come to the same result unless there is a collision;
* `freshName_agree`, `factoredAll_agree` — so it is with names, and with
  whatever names are looked for in;
* `Extension.Sound.collision_of_rewritten` — a rewriting makes no new
  collisions;
* `normalize_agree` — so it is with whole normalizations;
* `normalize_collision` — the same for well-formed grammars, and what a failing
  rewriting leaves.

Design notes:

* A collision of a later rewriting is one with a name of the grammar at the
  beginning: the names that rewritings introduce are passed over, and have
  apostrophes behind a name that was there.
-/
namespace PredictiveParsing

/-- A search that refuses some names ends as one that refuses none, or at a
candidate that it refuses. -/
theorem firstFree_eq_or (taken : List String) (refused : String → Bool) (left : Nat) (n : String) :
    firstFree taken refused left n = firstFree taken (fun _ => false) left n ∨
      ∃ k, firstFree taken refused left n = .error (prime^[k] n) ∧
        refused (prime^[k] n) = true := by
  induction left generalizing n with
  | zero => exact .inl rfl
  | succ left ih =>
    rw [firstFree, firstFree]
    by_cases hn : n ∉ taken
    · rw [if_pos hn, if_pos hn]
      exact .inl rfl
    · rw [if_neg hn, if_neg hn, if_neg Bool.false_ne_true]
      by_cases hr : refused n = true
      · rw [if_pos hr]
        exact .inr ⟨0, rfl, hr⟩
      · rw [if_neg hr]
        refine (ih (prime n)).imp_right ?_
        rintro ⟨k, he, hk⟩
        exact ⟨k + 1, he, hk⟩

/-- A search that refuses nothing finds a name. -/
theorem exists_firstFree (taken : List String) (left : Nat) (n : String) :
    ∃ m, firstFree taken (fun _ => false) left n = .ok m := by
  induction left generalizing n with
  | zero => exact ⟨n, rfl⟩
  | succ left ih =>
    rw [firstFree]
    split
    · exact ⟨n, rfl⟩
    · exact ih (prime n)

namespace Grammar

/-- The declared name `m` is in the way of one for the antecedent `a`, which is a
non-terminal or was named after one. -/
structure Collision (g : Grammar) (m a : String) : Prop where
  declared : g.isUserDeclared m = true
  primed : ∃ k, m = prime^[k + 1] a
  base : ∃ b ∈ g.nonTerminals, ∃ k, a = prime^[k] b

/-- The first run gives what the second one does, unless it fails because of a
collision. -/
def Agree {α : Type} (g : Grammar) (refused renamed : Except Fault α) : Prop :=
  ∃ v, renamed = .ok v ∧ (refused = .ok v ∨
    ∃ m a, refused = .error (.nameCollision m a) ∧ g.Collision m a)

/-- The first edit leaves what the second one does, unless it fails because of a
collision. -/
def EditsAgree (g : Grammar) (refused renamed : Except Fault Bool × Grammar) : Prop :=
  ∃ b r, renamed = (.ok b, r) ∧ (refused = (.ok b, r) ∨
    ∃ m a left, refused = (.error (.nameCollision m a), left) ∧ g.Collision m a)

variable {g r : Grammar} {m a : String}

theorem Agree.ok {α : Type} (v : α) : g.Agree (.ok v) (.ok v) :=
  ⟨v, rfl, .inl rfl⟩

/-- Runs that agree go on to agree. -/
theorem Agree.bind {α β : Type} {x y : Except Fault α} {f f' : α → Except Fault β}
    (h : g.Agree x y) (hf : ∀ v, g.Agree (f v) (f' v)) : g.Agree (x >>= f) (y >>= f') := by
  obtain ⟨v, rfl, rfl | ⟨m, a, rfl, hm⟩⟩ := h
  · exact hf v
  · obtain ⟨w, hw, -⟩ := hf v
    exact ⟨w, hw, .inr ⟨m, a, rfl, hm⟩⟩

/-! ### Names -/

theorem freshName_agree (taken : List String) (ha : a ∈ g.nonTerminals) :
    g.Agree (g.freshName .refuse taken a) (g.freshName .rename taken a) := by
  obtain ⟨n, hn⟩ := exists_firstFree taken taken.length (prime a)
  refine ⟨n, by simp [freshName, hn], ?_⟩
  rcases firstFree_eq_or taken g.isUserDeclared taken.length (prime a) with he | ⟨k, he, hk⟩
  · left
    simp [freshName, he, hn]
  · exact .inr ⟨_, a, by simp [freshName, he], hk, ⟨k, rfl⟩, a, ha, 0, rfl⟩

theorem extend_agree (voc : Extension) (ha : a ∈ g.nonTerminals) :
    g.Agree (g.extend .refuse voc a) (g.extend .rename voc a) :=
  (freshName_agree voc.taken ha).bind fun _ => .ok _

theorem foldlM_extend_agree {as : List String} (has : ∀ a ∈ as, a ∈ g.nonTerminals)
    (voc : Extension) :
    g.Agree (as.foldlM (g.extend .refuse) voc) (as.foldlM (g.extend .rename) voc) := by
  induction as generalizing voc with
  | nil => exact .ok voc
  | cons a as ih =>
    rw [List.forall_mem_cons] at has
    rw [List.foldlM_cons, List.foldlM_cons]
    exact (extend_agree voc has.1).bind (ih has.2)

theorem factoredAll_agree {ps : List Production} (hps : ∀ p ∈ ps, p.antecedent ∈ g.nonTerminals)
    (done : List (String × String)) (voc : Extension) :
    g.Agree (g.factoredAll .refuse done voc ps) (g.factoredAll .rename done voc ps) := by
  induction ps generalizing done voc with
  | nil => exact .ok _
  | cons p ps ih =>
    rw [List.forall_mem_cons] at hps
    rw [factoredAll, factoredAll]
    split
    · exact (ih hps.2 done voc).bind fun _ => .ok _
    · split
      · exact ih hps.2 done voc
      · exact (freshName_agree voc.taken hps.1).bind fun _ =>
          (ih hps.2 _ _).bind fun _ => .ok _

/-! ### Rewritings -/

theorem eliminateLeftRecursion_agree (hg : g.Rewritable) :
    g.EditsAgree (g.eliminateLeftRecursion .refuse) (g.eliminateLeftRecursion .rename) := by
  have hmem : ∀ a ∈ g.leftRecursive, a ∈ g.nonTerminals := fun a => hg.mem_of_mem_leftRecursive
  obtain ⟨voc, hvoc, hrefuse⟩ := foldlM_extend_agree hmem g.unextended
  obtain ⟨hsound, -⟩ := foldlM_extend_spec (sound_unextended hg.named) hg.named hmem hvoc
  have hadopt := adopt_of_sound hsound (voc.primes.map (·.2)) hg.named
    (g.withoutRecursionAll voc.primes g.productions)
  simp only [eliminateLeftRecursion]
  cases hl : g.leftRecursive with
  | nil => exact ⟨false, g, rfl, .inl rfl⟩
  | cons b bs =>
    rw [hl] at hvoc hrefuse
    simp only [hvoc, hadopt]
    refine ⟨true, _, rfl, hrefuse.imp (fun he => ?_) ?_⟩
    · simp only [he, hadopt]
    · rintro ⟨m, a, he, hm⟩
      exact ⟨m, a, g, by simp only [he], hm⟩

theorem leftFactor_agree (hg : g.Rewritable) :
    g.EditsAgree (g.leftFactor .refuse) (g.leftFactor .rename) := by
  obtain ⟨⟨voc, sides⟩, hvoc, hrefuse⟩ := factoredAll_agree hg.antecedent_mem [] g.unextended
  obtain ⟨hsound, -⟩ :=
    factoredAll_spec (sound_unextended hg.named) hg.named hg.antecedent_mem hvoc
  have hadopt := adopt_of_sound hsound (voc.primes.map (·.2)) hg.named sides
  simp only [leftFactor]
  split
  · exact ⟨false, g, rfl, .inl rfl⟩
  · simp only [hvoc, hadopt]
    refine ⟨true, _, rfl, hrefuse.imp (fun he => ?_) ?_⟩
    · simp only [he, hadopt]
    · rintro ⟨m, a, he, hm⟩
      exact ⟨m, a, g, by simp only [he], hm⟩

/-- A rewriting that is not adopted changes nothing. -/
theorem eq_of_adopt_error (hg : g.Named) {names introduced : List String} {sides : List Sides}
    {fault : Fault}
    (he : (match g.adopt names introduced sides with
      | (.error fault, g) => (.error fault, g)
      | (.ok (), g) => (.ok true, g) : Except Fault Bool × Grammar) = (.error fault, r)) :
    r = g := by
  rcases adopt_cases hg names introduced sides with ⟨_, ha⟩ | ⟨_, _, -, ha, -⟩
  · rw [ha] at he
    exact (Prod.mk.inj he).2.symm
  · rw [ha] at he
    cases he

theorem eq_of_eliminateLeftRecursion_error (hg : g.Named) {policy : CollisionPolicy} {fault : Fault}
    (he : g.eliminateLeftRecursion policy = (.error fault, r)) : r = g := by
  rcases eliminateLeftRecursion_cases policy g with ⟨-, h⟩ | ⟨_, h⟩ | ⟨voc, -, h⟩
  · rw [h] at he
    cases he
  · rw [h] at he
    exact (Prod.mk.inj he).2.symm
  · exact eq_of_adopt_error hg (h.symm.trans he)

theorem eq_of_leftFactor_error (hg : g.Named) {policy : CollisionPolicy} {fault : Fault}
    (he : g.leftFactor policy = (.error fault, r)) : r = g := by
  rcases leftFactor_cases policy g with ⟨-, h⟩ | ⟨_, h⟩ | ⟨voc, sides, -, h⟩
  · rw [h] at he
    cases he
  · rw [h] at he
    exact (Prod.mk.inj he).2.symm
  · exact eq_of_adopt_error hg (h.symm.trans he)

/-! ### Collisions of later rewritings -/

theorem isUserDeclared_iff {n : String} : g.isUserDeclared n = true ↔
    (n ∈ g.nonTerminals ∧ n ∉ g.introduced) ∨ n ∈ g.terminals := by
  simp [isUserDeclared]

theorem collision_copy_iff : g.copy.Collision m a ↔ g.Collision m a :=
  ⟨fun h => ⟨h.declared, h.primed, h.base⟩, fun h => ⟨h.declared, h.primed, h.base⟩⟩

/-- **A rewriting makes no new collisions**: the names that it adds count as
introduced, and are named after others. -/
theorem Extension.Sound.collision_of_rewritten {voc : Extension} (hvoc : Extension.Sound g voc)
    {sides : List Sides}
    (h : (g.rewritten voc.nonTerminals (voc.primes.map (·.2)) sides).Collision m a) :
    g.Collision m a := by
  refine ⟨?_, h.primed, ?_⟩
  · rcases isUserDeclared_iff.1 h.declared with ⟨hm, hnew⟩ | hm
    · have hmem : m ∈ voc.nonTerminals := hm
      have hkept : m ∉ g.introduced := fun hi =>
        hnew (List.mem_append_left _ (List.mem_filter.2 ⟨hi, decide_eq_true hmem⟩))
      rcases (hvoc.mem_nonTerminals_iff m).1 hmem with hold | hprime
      · exact isUserDeclared_iff.2 (.inl ⟨hold, hkept⟩)
      · refine absurd (List.mem_append_right _ (List.mem_filter.2 ⟨hprime, ?_⟩)) hnew
        simp [hkept]
    · exact isUserDeclared_iff.2 (.inr hm)
  · obtain ⟨b, hb, k, rfl⟩ := h.base
    rcases (hvoc.mem_nonTerminals_iff b).1 hb with hb | hb
    · exact ⟨b, hb, k, rfl⟩
    · obtain ⟨e, he, rfl⟩ := List.mem_map.1 hb
      obtain ⟨hold, j, hj⟩ := hvoc.primed e he
      exact ⟨e.1, hold, k + (j + 1), by rw [Function.iterate_add_apply, ← hj]⟩

theorem EditsAgree.mono {x y : Except Fault Bool × Grammar} (h : r.EditsAgree x y)
    (hgr : ∀ m a, r.Collision m a → g.Collision m a) : g.EditsAgree x y := by
  obtain ⟨b, h', hy, hx | ⟨m, a, left, hx, hm⟩⟩ := h
  · exact ⟨b, h', hy, .inl hx⟩
  · exact ⟨b, h', hy, .inr ⟨m, a, left, hx, hgr m a hm⟩⟩

theorem factorRounds_agree (hg : g.Rewritable) (rounds : Nat) :
    g.EditsAgree (g.factorRounds .refuse rounds) (g.factorRounds .rename rounds) := by
  induction rounds generalizing g with
  | zero => exact ⟨false, g, rfl, .inl rfl⟩
  | succ rounds ih =>
    rw [factorRounds, factorRounds]
    obtain ⟨b, r, hrename, hrefuse⟩ := leftFactor_agree hg
    rw [hrename]
    rcases leftFactor_outcome hg hrename with ⟨rfl, -⟩ | ⟨rfl, voc, names, sides, hr⟩
    · refine ⟨false, r, rfl, hrefuse.imp (fun he => by rw [he]) ?_⟩
      rintro ⟨m, a, left, he, hm⟩
      exact ⟨m, a, left, by rw [he], hm⟩
    · -- The rest of the rounds starts from what this one left, if it did not fail.
      obtain ⟨b', r', hrename', hrefuse'⟩ := (ih (hr.rewritable hg)).mono fun m a h => by
        rw [hr.eq_rewritten] at h
        exact hr.sound.collision_of_rewritten h
      simp only [hrename']
      refine ⟨true, r', rfl, ?_⟩
      rcases hrefuse with he | ⟨m, a, left, he, hm⟩
      · simp only [he]
        refine hrefuse'.imp (fun he' => by simp only [he']) ?_
        rintro ⟨m, a, left, he', hm⟩
        exact ⟨m, a, left, by simp only [he'], hm⟩
      · exact .inr ⟨m, a, left, by simp only [he], hm⟩

/-- **Normalizations under the two policies agree.** -/
theorem normalize_agree (hg : g.copy.Closed) :
    g.Agree (g.normalize .refuse) (g.normalize .rename) := by
  obtain ⟨removed, work, hrename, hrefuse⟩ := eliminateLeftRecursion_agree hg.rewritable
  have hwork : work.Rewritable ∧ ∀ m a, work.Collision m a → g.copy.Collision m a := by
    rcases eliminateLeftRecursion_outcome hg.rewritable hrename with
      ⟨-, -, rfl⟩ | ⟨-, voc, hremoval⟩
    · exact ⟨hg.rewritable, fun _ _ h => h⟩
    · refine ⟨(hremoval.closed hg).rewritable, fun m a h => ?_⟩
      rw [hremoval.eq_rewritten] at h
      exact hremoval.sound.collision_of_rewritten h
  obtain ⟨factored, done, hrename', hrefuse'⟩ :=
    (factorRounds_agree hwork.1 (work.weight + 1)).mono hwork.2
  simp only [normalize, factorFully, hrename, hrename', ← apply_ite Except.ok]
  refine ⟨_, rfl, ?_⟩
  rcases hrefuse with he | ⟨m, a, left, he, hm⟩
  · simp only [he]
    rcases hrefuse' with he' | ⟨m, a, left, he', hm⟩
    · left
      simp only [he']
    · exact .inr ⟨m, a, by simp only [he'], collision_copy_iff.1 hm⟩
  · exact .inr ⟨m, a, by simp only [he], collision_copy_iff.1 hm⟩

/-! ### The operations -/

/-- **What the policies do about collisions.**  Under renaming the normalization
of a well-formed grammar succeeds.  Under refusal it gives the same, or fails
because a name is in the way that the user declared and that is the name of a
declared non-terminal with apostrophes behind it; so it gives the same if there
is no such name.  Whatever the grammar and the policy, a rewriting that fails
leaves the grammar as it was. -/
theorem normalize_collision (hg : g.Reachable) :
    (Diagnostic.hasErrors g.problems = false → ∃ n, g.normalize .rename = .ok n ∧
      (g.normalize .refuse = .ok n ∨ ∃ m a, g.normalize .refuse = .error (.nameCollision m a) ∧
        g.isUserDeclared m = true ∧ ∃ b ∈ g.nonTerminals, ∃ k, m = prime^[k + 1] b) ∧
      ((∀ m, g.isUserDeclared m = true → ∀ b ∈ g.nonTerminals, ∀ k, m ≠ prime^[k + 1] b) →
        g.normalize .refuse = .ok n)) ∧
    ∀ policy fault r,
      (g.eliminateLeftRecursion policy = (.error fault, r) → r = g) ∧
      (g.leftFactor policy = (.error fault, r) → r = g) := by
  refine ⟨fun hvalid => ?_, fun policy fault r =>
    ⟨eq_of_eliminateLeftRecursion_error hg.named, eq_of_leftFactor_error hg.named⟩⟩
  obtain ⟨n, hrename, hrefuse⟩ := normalize_agree (closed_copy hg.named (wellFormed_iff.1 hvalid))
  have hname : ∀ {m a}, g.Collision m a → ∃ b ∈ g.nonTerminals, ∃ k, m = prime^[k + 1] b := by
    intro m a h
    obtain ⟨b, hb, j, rfl⟩ := h.base
    obtain ⟨k, rfl⟩ := h.primed
    exact ⟨b, hb, k + j, by rw [← Function.iterate_add_apply, Nat.add_right_comm]⟩
  refine ⟨n, hrename, hrefuse.imp_right ?_, fun hnone => ?_⟩
  · rintro ⟨m, a, he, hm⟩
    exact ⟨m, a, he, hm.declared, hname hm⟩
  · rcases hrefuse with he | ⟨m, a, -, hm⟩
    · exact he
    · obtain ⟨b, hb, k, hk⟩ := hname hm
      exact absurd hk (hnone m hm.declared b hb k)

/-- A declared name in the way of one for a group. -/
theorem normalize_collision_declared :
    let items : List ProductionItem := [.sides ⟨"S", ["a", "S'"]⟩, .sides ⟨"S", ["a", "b"]⟩,
      .sides ⟨"S'", ["b"]⟩]
    let g : Grammar :=
      { nonTerminals := ["S", "S'"], terminals := ["a", "b"], start := some "S"
        productions := [⟨"S", .terminal "a", [.nonTerminal "S'"]⟩,
          ⟨"S", .terminal "a", [.terminal "b"]⟩, ⟨"S'", .terminal "b", []⟩] }
    let r : Grammar :=
      { nonTerminals := ["S", "S'", "S''"], terminals := ["a", "b"], start := some "S"
        introduced := ["S''"]
        productions := [⟨"S", .terminal "a", [.nonTerminal "S''"]⟩,
          ⟨"S''", .nonTerminal "S'", []⟩, ⟨"S''", .terminal "b", []⟩, ⟨"S'", .terminal "b", []⟩] }
    build "" "" ["S", "S'"] ["a", "b"] items (some "S") = .ok g ∧
      Diagnostic.hasErrors g.problems = false ∧
      (∃ n, g.normalize .rename = .ok n ∧ n = ⟨r, false, true⟩) ∧
      g.normalize .refuse = .error (.nameCollision "S'" "S") ∧
      g.leftFactor .refuse = (.error (.nameCollision "S'" "S"), g) := by
  intro items g r
  have hbuild : build "" "" ["S", "S'"] ["a", "b"] items (some "S") = .ok g := rfl
  have hvalid : Diagnostic.hasErrors g.problems = false := by decide +kernel
  obtain ⟨hnormalize, hleft⟩ := normalize_collision (.build hbuild)
  obtain ⟨n, hn, -⟩ := hnormalize hvalid
  have hrename : g.normalize .rename = .ok ⟨r, false, true⟩ := by decide +kernel
  have hfails : (g.leftFactor .refuse).1 = .error (.nameCollision "S'" "S") := by decide +kernel
  refine ⟨hbuild, hvalid, ⟨n, hn, Except.ok.inj (hn.symm.trans hrename)⟩, by decide +kernel, ?_⟩
  have hpair : g.leftFactor .refuse = (.error (.nameCollision "S'" "S"), (g.leftFactor .refuse).2) :=
    Prod.ext hfails rfl
  rw [hpair, (hleft .refuse _ _).2 hpair]

end Grammar

end PredictiveParsing
