import PredictiveParsing.Grammar.Validation
import PredictiveParsing.Proofs.Grammar.Vocabulary
import PredictiveParsing.Grammar.Normalization
import PredictiveParsing.Table.Construction

/-
The grammars that operations can make.

A grammar is built and then worked on: its parts are replaced, it is checked,
rewritten, copied, and its sets and table are computed.  An operation that
fails still leaves a grammar behind.

* `Operation`, `Operation.apply` — the operations, and what they leave;
* `Grammar.Reachable` — grammars made by any operations;
* `Grammar.SoundlyReachable` — grammars on which no replacement of the
  vocabulary failed;
* `apply_of_computes` — computing only notes sets;
* `Named.apply`, `Reachable.named` — the vocabulary is always one that can be
  declared;
* `Grammar.Coherent`, `SoundlyReachable.coherent` — tags and remembered sets
  are those that the vocabulary and the productions give;
* `Grammar.OnceTagged`, `Reachable.onceTagged` — after a failure the tags are
  still those of one vocabulary.

Design notes:

* A vocabulary is replaced in two halves.  If the second fails, new
  non-terminals stand beside old tags and old sets, and nothing makes up for
  it later; that is why `Coherent` needs the sound operations.
-/
namespace PredictiveParsing

/-- What can be done with a grammar.  A normalization goes on with its
result. -/
inductive Operation where
  | setVocabulary (nonTerminals terminals : List String)
  | setProductions (items : List ProductionItem)
  | setStart (start : Option String)
  | validate
  | eliminateLeftRecursion (policy : CollisionPolicy)
  | leftFactor (policy : CollisionPolicy)
  | normalize (policy : CollisionPolicy)
  | copy
  | computeFirst
  | computeFollow
  /-- The FIRST sets with their log. -/
  | logFirst
  /-- The FOLLOW sets with their log. -/
  | logFollow
  | knownSets
  | buildTable (functions : List ErrorFunction) (cells : ErrorCells)

namespace Operation

open Grammar

/-- The grammar that an operation leaves. -/
def apply : Operation → Grammar → Grammar
  | .setVocabulary nonTerminals terminals, g => (Grammar.setVocabulary nonTerminals terminals g).2
  | .setProductions items, g => (Grammar.setProductions items g).2
  | .setStart start, g => g.setStart start
  | .validate, g => g.validate.2
  | .eliminateLeftRecursion policy, g => (g.eliminateLeftRecursion policy).2
  | .leftFactor policy, g => (g.leftFactor policy).2
  | .normalize policy, g =>
    match g.normalize policy with
    | .ok n => n.grammar
    | .error _ => g
  | .copy, g => g.copy
  | .computeFirst, g => g.computeFirst.2
  | .computeFollow, g => (g.knownFirst.2.computeFollow g.knownFirst.1).2
  | .logFirst, g => g.logFirst.2
  | .logFollow, g => (g.logFollow none).2
  | .knownSets, g => g.knownSets.2.2
  | .buildTable functions cells, g => (g.buildTable functions cells).2

/-- The operation is no replacement of the vocabulary that fails. -/
def IsSound : Operation → Grammar → Prop
  | .setVocabulary nonTerminals terminals, g =>
    (Grammar.setVocabulary nonTerminals terminals g).1 = .ok ()
  | _, _ => True

/-- The operation only computes sets, or a table from them. -/
def computes : Operation → Bool
  | .computeFirst | .computeFollow | .logFirst | .logFollow | .knownSets | .buildTable _ _ => true
  | _ => false

end Operation

namespace Grammar

/-- The grammars made by operations that are allowed where they are used. -/
inductive ReachableBy (allowed : Operation → Grammar → Prop) : Grammar → Prop where
  | build {name description : String} {nonTerminals terminals : List String}
      {items : List ProductionItem} {start : Option String} {g : Grammar}
      (h : build name description nonTerminals terminals items start = .ok g) :
      ReachableBy allowed g
  | apply {g : Grammar} (o : Operation) (ha : allowed o g) (h : ReachableBy allowed g) :
      ReachableBy allowed (o.apply g)

/-- The grammars made by any operations. -/
def Reachable : Grammar → Prop :=
  ReachableBy fun _ _ => True

/-- The grammars made without a failing replacement of the vocabulary. -/
def SoundlyReachable : Grammar → Prop :=
  ReachableBy Operation.IsSound

variable {g : Grammar}

theorem SoundlyReachable.reachable (h : g.SoundlyReachable) : g.Reachable := by
  induction h with
  | build h => exact .build h
  | apply o _ _ ih => exact .apply o trivial ih

/-! ### What rewritings leave -/

/-- Everything the removal of left recursion can do: leave the grammar alone,
or adopt a rewriting of it. -/
theorem eliminateLeftRecursion_cases (policy : CollisionPolicy) (g : Grammar) :
    (g.leftRecursive = [] ∧ g.eliminateLeftRecursion policy = (.ok false, g)) ∨
    (∃ fault, g.eliminateLeftRecursion policy = (.error fault, g)) ∨
    ∃ voc, g.leftRecursive.foldlM (g.extend policy) g.unextended = .ok voc ∧
      g.eliminateLeftRecursion policy =
        match g.adopt voc.nonTerminals (voc.primes.map (·.2))
          (g.withoutRecursionAll voc.primes g.productions) with
        | (.error fault, g) => (.error fault, g)
        | (.ok (), g) => (.ok true, g) := by
  rw [eliminateLeftRecursion]
  cases hr : g.leftRecursive with
  | nil => exact .inl ⟨rfl, rfl⟩
  | cons a as =>
    cases he : (a :: as).foldlM (g.extend policy) g.unextended with
    | error fault => exact .inr (.inl ⟨fault, by simp [he]⟩)
    | ok voc =>
      refine .inr (.inr ⟨voc, rfl, ?_⟩)
      dsimp only
      rewrite [he]
      rfl

/-- Everything a round of left factoring can do. -/
theorem leftFactor_cases (policy : CollisionPolicy) (g : Grammar) :
    (g.needsLeftFactoring = false ∧ g.leftFactor policy = (.ok false, g)) ∨
    (∃ fault, g.leftFactor policy = (.error fault, g)) ∨
    ∃ voc sides, g.factoredAll policy [] g.unextended g.productions = .ok (voc, sides) ∧
      g.leftFactor policy =
        match g.adopt voc.nonTerminals (voc.primes.map (·.2)) sides with
        | (.error fault, g) => (.error fault, g)
        | (.ok (), g) => (.ok true, g) := by
  rw [leftFactor]
  cases hn : g.needsLeftFactoring with
  | false => exact .inl ⟨rfl, rfl⟩
  | true =>
    cases hf : g.factoredAll policy [] g.unextended g.productions with
    | error fault => exact .inr (.inl ⟨fault, rfl⟩)
    | ok r => exact .inr (.inr ⟨r.1, r.2, rfl, rfl⟩)

/-- What holds of a grammar and of every rewriting it can adopt to remove left
recursion holds after the removal. -/
theorem eliminateLeftRecursion_of_adopt {P : Grammar → Prop} {policy : CollisionPolicy}
    (hadopt : ∀ voc, g.leftRecursive.foldlM (g.extend policy) g.unextended = .ok voc →
      P (adopt voc.nonTerminals (voc.primes.map (·.2))
        (g.withoutRecursionAll voc.primes g.productions) g).2)
    (h : P g) : P (g.eliminateLeftRecursion policy).2 := by
  rcases eliminateLeftRecursion_cases policy g with ⟨-, he⟩ | ⟨_, he⟩ | ⟨voc, hvoc, he⟩
  · rw [he]
    exact h
  · rw [he]
    exact h
  · have ha := hadopt voc hvoc
    rw [he]
    split
    · next ha' => rwa [ha'] at ha
    · next ha' => rwa [ha'] at ha

theorem leftFactor_of_adopt {P : Grammar → Prop} {policy : CollisionPolicy}
    (hadopt : ∀ voc sides, g.factoredAll policy [] g.unextended g.productions = .ok (voc, sides) →
      P (adopt voc.nonTerminals (voc.primes.map (·.2)) sides g).2)
    (h : P g) : P (g.leftFactor policy).2 := by
  rcases leftFactor_cases policy g with ⟨-, he⟩ | ⟨_, he⟩ | ⟨voc, sides, hall, he⟩
  · rw [he]
    exact h
  · rw [he]
    exact h
  · have ha := hadopt voc sides hall
    rw [he]
    split
    · next ha' => rwa [ha'] at ha
    · next ha' => rwa [ha'] at ha

/-- What holds of a grammar and is kept by adopting rewritings holds after the
removal of left recursion. -/
theorem eliminateLeftRecursion_induction {P : Grammar → Prop}
    (hadopt : ∀ names introduced sides g, P g → P (adopt names introduced sides g).2)
    (policy : CollisionPolicy) (h : P g) : P (g.eliminateLeftRecursion policy).2 :=
  eliminateLeftRecursion_of_adopt (fun _ _ => hadopt _ _ _ g h) h

theorem leftFactor_induction {P : Grammar → Prop}
    (hadopt : ∀ names introduced sides g, P g → P (adopt names introduced sides g).2)
    (policy : CollisionPolicy) (h : P g) : P (g.leftFactor policy).2 :=
  leftFactor_of_adopt (fun _ _ _ => hadopt _ _ _ g h) h

/-- What rounds of left factoring keep, all of them together keep. -/
theorem factorRounds_induction {P : Grammar → Prop} {policy : CollisionPolicy}
    (hfactor : ∀ g, P g → P (g.leftFactor policy).2) (rounds : Nat) (h : P g) :
    P (g.factorRounds policy rounds).2 := by
  induction rounds generalizing g with
  | zero => exact h
  | succ rounds ih =>
    have hl := hfactor g h
    rw [factorRounds]
    split
    · next g' he =>
      rw [he] at hl
      have hr := ih hl
      split
      · next he' => rwa [he'] at hr
      · exact hr
    · exact hl

/-- What holds of a grammar, its copies and all rewritings of such grammars
holds of the result of a normalization. -/
theorem normalize_of_rewritings {P : Grammar → Prop} {policy : CollisionPolicy}
    (hremove : ∀ g, P g → P (g.eliminateLeftRecursion policy).2)
    (hfactor : ∀ g, P g → P (g.leftFactor policy).2) (hcopy : P g → P g.copy)
    {n : Normalization} (hn : g.normalize policy = .ok n) (h : P g) : P n.grammar := by
  have he := hremove _ (hcopy h)
  rw [normalize] at hn
  split at hn
  · cases hn
  · next removed work hw =>
    rw [hw] at he
    have hf := factorRounds_induction hfactor (work.weight + 1) he
    split at hn
    · cases hn
    · next factored work' hw' =>
      rw [show work.factorRounds policy (work.weight + 1) = (.ok factored, work') from hw'] at hf
      split at hn <;> cases hn
      · exact hf
      · exact h

/-- What holds of a grammar, its copies and the rewritings they adopt holds of
the result of a normalization. -/
theorem normalize_induction {P : Grammar → Prop}
    (hadopt : ∀ names introduced sides g, P g → P (adopt names introduced sides g).2)
    (hcopy : P g → P g.copy) {policy : CollisionPolicy} {n : Normalization}
    (hn : g.normalize policy = .ok n) (h : P g) : P n.grammar :=
  normalize_of_rewritings (fun _ h => eliminateLeftRecursion_induction hadopt policy h)
    (fun _ h => leftFactor_induction hadopt policy h) hcopy hn h

/-! ### Operations that compute -/

theorem knownFirst_eq (g : Grammar) :
    g.knownFirst = (g.knownFirst.1, { g with first := some g.knownFirst.1 }) := by
  obtain ⟨name, description, nts, ts, ps, start, introduced, validity, first, follow⟩ := g
  cases first <;> rfl

theorem knownSets_eq (g : Grammar) : g.knownSets = (g.knownFirst.1, g.knownSets.2.1,
    { g with first := some g.knownFirst.1, follow := some g.knownSets.2.1 }) := by
  obtain ⟨name, description, nts, ts, ps, start, introduced, validity, first, follow⟩ := g
  cases first <;> cases follow <;> rfl

theorem some_knownFirst_cases (g : Grammar) :
    some g.knownFirst.1 = g.first ∨ some g.knownFirst.1 = some g.solveFirst.1 := by
  rw [knownFirst]
  split
  · next f hf => exact .inl hf.symm
  · exact .inr rfl

theorem some_knownSets_cases (g : Grammar) : some g.knownSets.2.1 = g.follow ∨
    some g.knownSets.2.1 = some (g.solveFollow g.knownFirst.1).1 := by
  rw [knownSets, knownFirst_eq]
  dsimp only
  cases g.follow with
  | some f => exact .inl rfl
  | none => exact .inr rfl

/-- **Computing only notes sets**, each of which was remembered or is that of
the productions. -/
theorem apply_of_computes (g : Grammar) {o : Operation} (h : o.computes = true) :
    ∃ first follow, o.apply g = { g with first, follow } ∧
      (first = g.first ∨ first = some g.solveFirst.1) ∧
      (follow = g.follow ∨ follow = some (g.solveFollow g.knownFirst.1).1) := by
  have hfirst := g.some_knownFirst_cases
  have hfollow := g.some_knownSets_cases
  cases o with
  | computeFirst => exact ⟨_, _, rfl, .inr rfl, .inl rfl⟩
  | computeFollow =>
    rw [Operation.apply, knownFirst_eq]
    exact ⟨_, _, rfl, hfirst, .inr rfl⟩
  | logFirst => exact ⟨_, _, rfl, .inr rfl, .inl rfl⟩
  | logFollow =>
    rw [Operation.apply, logFollow, givenFirst, knownFirst_eq]
    exact ⟨_, _, rfl, hfirst, .inr rfl⟩
  | knownSets =>
    rw [Operation.apply, knownSets_eq]
    exact ⟨_, _, rfl, hfirst, hfollow⟩
  | buildTable functions cells =>
    rw [Operation.apply, buildTable, knownSets_eq]
    exact ⟨_, _, rfl, hfirst, hfollow⟩
  | setVocabulary | setProductions | setStart | validate | eliminateLeftRecursion | leftFactor
  | normalize | copy => cases h

/-- Building a table only notes sets in the grammar. -/
theorem buildTable_frame (g : Grammar) (functions : List ErrorFunction) (cells : ErrorCells) :
    (g.buildTable functions cells).2.nonTerminals = g.nonTerminals ∧
      (g.buildTable functions cells).2.productions = g.productions ∧
      (g.buildTable functions cells).2.start = g.start := by
  rw [buildTable, knownSets_eq]
  exact ⟨rfl, rfl, rfl⟩

/-! ### Vocabularies of reachable grammars -/

theorem build_cases {name description : String} {nonTerminals terminals : List String}
    {items : List ProductionItem} {start : Option String}
    (h : build name description nonTerminals terminals items start = .ok g) :
    ∃ g₁ g₂, setVocabulary nonTerminals terminals { name, description } = (.ok (), g₁) ∧
      setProductions items g₁ = (.ok (), g₂) ∧ g = g₂.setStart start := by
  rw [build] at h
  split at h
  · cases h
  · next g₁ h₁ =>
    split at h
    · cases h
    · next g₂ h₂ => exact ⟨g₁, g₂, h₁, h₂, (Except.ok.inj h).symm⟩

/-- No operation, failing ones included, leaves a vocabulary that cannot be
declared. -/
theorem Named.apply (h : g.Named) (o : Operation) : (o.apply g).Named := by
  have hadopt : ∀ names introduced sides (g : Grammar), g.Named →
      (Grammar.adopt names introduced sides g).2.Named :=
    fun names introduced sides g h => h.adopt names introduced sides
  by_cases hcomputes : o.computes = true
  · obtain ⟨_, _, he, -, -⟩ := g.apply_of_computes hcomputes
    rw [he]
    exact ⟨h.nonTerminals, h.terminals⟩
  cases o with
  | setVocabulary nonTerminals terminals => exact h.setVocabulary _ _
  | setProductions items => exact h.setProductions _
  | setStart start => exact h.setStart start
  | validate => exact ⟨h.nonTerminals, h.terminals⟩
  | eliminateLeftRecursion policy => exact eliminateLeftRecursion_induction hadopt policy h
  | leftFactor policy => exact leftFactor_induction hadopt policy h
  | normalize policy =>
    simp only [Operation.apply]
    split
    · next n hn => exact normalize_induction hadopt (fun h => ⟨h.nonTerminals, h.terminals⟩) hn h
    · exact h
  | copy => exact ⟨h.nonTerminals, h.terminals⟩
  | computeFirst | computeFollow | logFirst | logFollow | knownSets | buildTable =>
    exact absurd rfl hcomputes

/-- **The vocabulary of a reachable grammar is one that can be declared.** -/
theorem Reachable.named (h : g.Reachable) : g.Named := by
  induction h with
  | @build name description nonTerminals terminals items start _ h =>
    obtain ⟨g₁, g₂, h₁, h₂, rfl⟩ := build_cases h
    -- A grammar is built from one without any names.
    have hempty : Named { name, description } := ⟨.nil, .nil⟩
    have hv := hempty.setVocabulary nonTerminals terminals
    rw [h₁] at hv
    have hp := hv.setProductions items
    rw [h₂] at hp
    exact hp.setStart start
  | apply o _ _ ih => exact ih.apply o

/-! ### Tags and remembered sets of soundly reachable grammars -/

/-- The tags are those of the vocabulary, and the sets that are remembered are
those of the productions. -/
structure Coherent (g : Grammar) : Prop where
  tagged : g.Tagged
  first_eq : ∀ f, g.first = some f → f = g.solveFirst.1
  follow_eq : ∀ f, g.follow = some f → f = (g.solveFollow g.solveFirst.1).1

theorem Coherent.of_forgotten (ht : g.Tagged) (h₁ : g.first = none) (h₂ : g.follow = none) :
    g.Coherent :=
  ⟨ht, by simp [h₁], by simp [h₂]⟩

theorem Coherent.setProductions (h : g.Coherent) (items : List ProductionItem) :
    (setProductions items g).2.Coherent := by
  rcases setProductions_cases items g with ⟨_, he⟩ | ⟨sides, -, he⟩
  · rw [he]
    exact h
  · rw [he]
    have ht : Tagged (invalidate { g with productions := sides.map g.tag }) :=
      tagged_of_productions_eq rfl
    exact .of_forgotten ht rfl rfl

theorem Coherent.adopt (hn : g.Named) (h : g.Coherent) (names introduced : List String)
    (sides : List Sides) : (adopt names introduced sides g).2.Coherent := by
  rcases adopt_cases hn names introduced sides with
    ⟨_, he⟩ | ⟨_, g', -, he, -, -, -, hp, h₁, h₂⟩
  · rw [he]
    exact h
  · rw [he]
    exact .of_forgotten (tagged_of_productions_eq hp) h₁ h₂

/-- The sets that are known of a coherent grammar are those of its
productions. -/
theorem Coherent.knownFirst (h : g.Coherent) : g.knownFirst.1 = g.solveFirst.1 := by
  rw [Grammar.knownFirst]
  split
  · next first hf => exact h.first_eq first hf
  · rfl

theorem Coherent.knownSets (h : g.Coherent) : g.knownSets.1 = g.solveFirst.1 ∧
    g.knownSets.2.1 = (g.solveFollow g.solveFirst.1).1 := by
  have hf := h.knownFirst
  refine ⟨by rw [knownSets_eq, hf], ?_⟩
  rw [Grammar.knownSets]
  rw [knownFirst_eq, hf]
  dsimp only
  cases hw : g.follow with
  | some follow => exact h.follow_eq follow hw
  | none => rfl

/-- Noting the sets of the productions changes nothing. -/
theorem Coherent.note (h : g.Coherent) {first follow : Option Family}
    (h₁ : ∀ f, first = some f → f = g.solveFirst.1)
    (h₂ : ∀ f, follow = some f → f = (g.solveFollow g.solveFirst.1).1) :
    Coherent { g with first, follow } :=
  ⟨h.tagged, h₁, h₂⟩

/-- Computing notes the sets of the productions. -/
theorem Coherent.apply_of_computes (h : g.Coherent) {o : Operation} (ho : o.computes = true) :
    (o.apply g).Coherent := by
  obtain ⟨first, follow, he, h₁, h₂⟩ := g.apply_of_computes ho
  rw [h.knownFirst] at h₂
  rw [he]
  refine h.note (fun f hf => ?_) fun f hf => ?_
  · rcases h₁ with rfl | rfl
    · exact h.first_eq f hf
    · exact (Option.some.inj hf).symm
  · rcases h₂ with rfl | rfl
    · exact h.follow_eq f hf
    · exact (Option.some.inj hf).symm

/-- **Without a failing replacement of the vocabulary, tags and remembered sets
are always right.** -/
theorem SoundlyReachable.coherent (h : g.SoundlyReachable) : g.Coherent := by
  have hadopt : ∀ names introduced sides (g : Grammar), g.Named ∧ g.Coherent →
      (adopt names introduced sides g).2.Named ∧ (adopt names introduced sides g).2.Coherent :=
    fun names introduced sides g h => ⟨h.1.adopt names introduced sides, h.2.adopt h.1 _ _ _⟩
  have hcopy : ∀ {g : Grammar}, g.Named → g.copy.Coherent :=
    fun h => .of_forgotten (tagged_retagged _ _) rfl rfl
  induction h with
  | @build name description nonTerminals terminals items start _ h =>
    obtain ⟨g₁, g₂, -, h₂, rfl⟩ := build_cases h
    rcases setProductions_cases items g₁ with ⟨_, he⟩ | ⟨sides, -, he⟩
    · rw [h₂] at he
      cases he
    · rw [h₂] at he
      cases he
      have ht : Tagged (invalidate { g₁ with productions := sides.map g₁.tag }) :=
        tagged_of_productions_eq rfl
      exact .of_forgotten (ht.setStart start) rfl rfl
  | @apply g o ha hg ih =>
    -- The operations forget the sets, or put down those of the productions.
    have hn := SoundlyReachable.reachable hg |>.named
    by_cases hcomputes : o.computes = true
    · exact ih.apply_of_computes hcomputes
    cases o with
    | setVocabulary nonTerminals terminals =>
      rcases setVocabulary_cases nonTerminals terminals g with
        ⟨_, he⟩ | ⟨_, _, -, he⟩ | ⟨names, others, -, -, he⟩
      · simp [Operation.IsSound, he] at ha
      · simp [Operation.IsSound, he] at ha
      · rw [Operation.apply, he]
        exact .of_forgotten (tagged_retagged g names) rfl rfl
    | setProductions items => exact ih.setProductions _
    | setStart start => exact .of_forgotten (ih.tagged.setStart start) rfl rfl
    | validate => exact ⟨ih.tagged, ih.first_eq, ih.follow_eq⟩
    | eliminateLeftRecursion policy =>
      exact (eliminateLeftRecursion_induction hadopt policy ⟨hn, ih⟩).2
    | leftFactor policy => exact (leftFactor_induction hadopt policy ⟨hn, ih⟩).2
    | normalize policy =>
      simp only [Operation.apply]
      split
      · next n he =>
        exact (normalize_induction hadopt
          (fun h => ⟨⟨h.1.nonTerminals, h.1.terminals⟩, hcopy h.1⟩) he ⟨hn, ih⟩).2
      · exact ih
    | copy => exact hcopy hn
    | computeFirst | computeFollow | logFirst | logFollow | knownSets | buildTable =>
      exact absurd rfl hcomputes

/-! ### Tags of all reachable grammars -/

/-- The symbols of all consequents are tagged as some vocabulary says: the
present one, or one that was there before. -/
def OnceTagged (g : Grammar) : Prop :=
  ∃ names, Declarable names ∧ ∀ p ∈ g.productions, p.retag names = p

theorem Tagged.onceTagged (h : g.Tagged) (hn : g.Named) : g.OnceTagged :=
  ⟨g.nonTerminals, hn.nonTerminals, h⟩

/-- No terminal of a consequent has a reserved name. -/
theorem OnceTagged.notMem_reserved (h : g.OnceTagged) {p : Production} (hp : p ∈ g.productions)
    {t : String} (ht : .terminal t ∈ p.consequent) : t ∉ reserved := by
  obtain ⟨names, -, htags⟩ := h
  rw [← htags p hp, Production.retag, Production.consequent_ofSymbols, if_neg (by
    simp [Production.names, Production.consequent])] at ht
  obtain ⟨n, -, hn⟩ := List.mem_map.1 ht
  have hname : n = t := by rw [← Symbol.name_ofName names n, hn, Symbol.name]
  subst hname
  -- A reserved name is tagged as its marker.
  intro hr
  simp only [reserved, List.mem_cons, List.not_mem_nil, or_false] at hr
  rcases hr with rfl | rfl <;> cases hn

theorem OnceTagged.setProductions (h : g.OnceTagged) (hn : g.Named) (items : List ProductionItem) :
    (setProductions items g).2.OnceTagged := by
  have hnamed := hn.setProductions items
  rcases setProductions_cases items g with ⟨_, he⟩ | ⟨sides, -, he⟩
  · rw [he]
    exact h
  · rw [he] at hnamed ⊢
    have ht : Tagged (invalidate { g with productions := sides.map g.tag }) :=
      tagged_of_productions_eq rfl
    exact ht.onceTagged hnamed

theorem OnceTagged.adopt (h : g.OnceTagged) (hn : g.Named) (names introduced : List String)
    (sides : List Sides) : (adopt names introduced sides g).2.OnceTagged := by
  have hnamed := hn.adopt names introduced sides
  rcases adopt_cases hn names introduced sides with ⟨_, he⟩ | ⟨_, g', -, he, -, -, -, hp, -, -⟩
  · rw [he]
    exact h
  · rw [he] at hnamed ⊢
    exact (tagged_of_productions_eq hp).onceTagged hnamed

/-- **The tags of a reachable grammar are those of one vocabulary**, whatever
became of that. -/
theorem Reachable.onceTagged (h : g.Reachable) : g.OnceTagged := by
  have hadopt : ∀ names introduced sides (g : Grammar), g.Named ∧ g.OnceTagged →
      (Grammar.adopt names introduced sides g).2.Named ∧
        (Grammar.adopt names introduced sides g).2.OnceTagged :=
    fun names introduced sides g h =>
      ⟨h.1.adopt names introduced sides, h.2.adopt h.1 names introduced sides⟩
  have hcopy : ∀ {g : Grammar}, g.Named → g.copy.Named ∧ g.copy.OnceTagged :=
    fun hn => ⟨⟨hn.nonTerminals, hn.terminals⟩,
      (tagged_retagged _ _).onceTagged ⟨hn.nonTerminals, hn.terminals⟩⟩
  induction h with
  | @build name description nonTerminals terminals items start g h =>
    have hsound : g.SoundlyReachable := .build h
    exact hsound.coherent.tagged.onceTagged hsound.reachable.named
  | @apply g o _ hg ih =>
    have hn := Reachable.named hg
    by_cases hcomputes : o.computes = true
    · obtain ⟨_, _, he, -, -⟩ := g.apply_of_computes hcomputes
      rw [he]
      exact ih
    cases o with
    | setVocabulary nonTerminals terminals =>
      have hnamed := hn.setVocabulary nonTerminals terminals
      rcases setVocabulary_cases nonTerminals terminals g with
        ⟨_, he⟩ | ⟨_, _, -, he⟩ | ⟨names, others, -, -, he⟩
      · rw [Operation.apply, he]
        exact ih
      · rw [Operation.apply, he]
        exact ih
      · rw [he] at hnamed
        rw [Operation.apply, he]
        exact Tagged.onceTagged (tagged_retagged g names) hnamed
    | setProductions items => exact ih.setProductions hn items
    | setStart start => exact ih
    | validate => exact ih
    | eliminateLeftRecursion policy =>
      exact (eliminateLeftRecursion_induction hadopt policy ⟨hn, ih⟩).2
    | leftFactor policy => exact (leftFactor_induction hadopt policy ⟨hn, ih⟩).2
    | normalize policy =>
      simp only [Operation.apply]
      split
      · next n he => exact (normalize_induction hadopt (fun h => hcopy h.1) he ⟨hn, ih⟩).2
      · exact ih
    | copy => exact (hcopy hn).2
    | computeFirst | computeFollow | logFirst | logFollow | knownSets | buildTable =>
      exact absurd rfl hcomputes

end Grammar

end PredictiveParsing
