import PredictiveParsing.Proofs.Document.Faults
import PredictiveParsing.Proofs.Grammar.Inference

/-
A grammar that is saved and loaded again is the same.

What is loaded is cleaned: names are trimmed, blank and repeated ones dropped,
and consequents tagged anew.  What is saved are the names as they stand.  So
every name that a grammar can get has to survive the cleaning.

* `Text.IsTidy` — names that trimming leaves alone;
* `Grammar.IsStorable` — grammars of such names;
* `isStorable_of_build`, `IsStorable.adopt` — the ways a grammar gets its names;
* `IsStorable.toGrammar_toDocument` — a storable grammar is loaded as it was
  saved;
* `Document.ofValue_toValue` — a document is read back from its value;
* `Grammar.Produced` — the grammars that are loaded, written as lines or
  normalized;
* `load_toDocument` — these grammars are loaded as they were saved.

Design notes:

* Antecedents need not be declared, here and there they are even `ε`.  Nothing
  but the vocabulary has to be free of reserved names.
* A rewriting names non-terminals by apostrophes behind an antecedent.  As that
  is tidy, so is the new name, declared or not.
-/
namespace PredictiveParsing

/-! ### Tidy names -/

/-- The text has no blanks at its ends, and there is something in it. -/
structure Text.IsTidy (s : String) : Prop where
  trim_eq : Text.trim s = s
  ne_empty : s ≠ ""

theorem Text.isTidy_trim {s : String} (h : Text.trim s ≠ "") : Text.IsTidy (Text.trim s) :=
  ⟨Text.trim_trim s, h⟩

theorem Text.IsWord.isTidy {w : String} (h : Text.IsWord w) : Text.IsTidy w :=
  ⟨h.trim_eq, h.1⟩

theorem isTidy_epsilonName : Text.IsTidy epsilonName :=
  ⟨by decide, by decide⟩

theorem isTidy_iterate_prime {n : String} (h : Text.IsTidy n) (k : Nat) :
    Text.IsTidy (prime^[k] (prime n)) :=
  have hp := iterate_prime_declarable k h.trim_eq h.ne_empty
  ⟨hp.1, hp.2.1⟩

/-- The names of a production, all of them tidy. -/
structure Sides.IsTidy (s : Sides) : Prop where
  antecedent : Text.IsTidy s.antecedent
  names : ∀ n ∈ s.names, Text.IsTidy n

namespace Document

theorem isTidy_tidied {r : Sides} (h : Text.trim r.antecedent ≠ "") : (tidied r).IsTidy := by
  refine ⟨Text.isTidy_trim h, fun n hn => ?_⟩
  obtain ⟨hn, hne⟩ := List.mem_filter.1 hn
  obtain ⟨m, -, rfl⟩ := List.mem_map.1 hn
  exact Text.isTidy_trim (by simpa using hne)

/-- Tidy names are left alone when a document is loaded. -/
theorem tidied_eq_self {r : Sides} (h : r.IsTidy) : tidied r = r := by
  have htrim : r.names.map Text.trim = r.names := by
    rw [List.map_congr_left fun n hn => (h.names n hn).trim_eq]
    exact List.map_id' _
  have hkeep : r.names.filter (· ≠ "") = r.names :=
    List.filter_eq_self.2 fun n hn => by simpa using (h.names n hn).ne_empty
  rw [tidied, h.antecedent.trim_eq, htrim, hkeep]

end Document

namespace Grammar

variable {g : Grammar}

/-! ### Grammars of tidy names -/

/-- The vocabulary can be declared, the tags are right, and the start symbol and
all names in productions are tidy. -/
structure IsStorable (g : Grammar) : Prop where
  named : g.Named
  tagged : g.Tagged
  start : ∀ n ∈ g.start, Text.IsTidy n
  sides : ∀ p ∈ g.productions, p.sides.IsTidy

theorem isTidy_sides_tag (g : Grammar) {s : Sides} (h : s.IsTidy) : (g.tag s).sides.IsTidy := by
  constructor
  · rw [Production.sides, tag, Production.antecedent_ofSymbols]
    exact h.antecedent
  · intro n hn
    rcases mem_names_tag hn with rfl | hn
    · exact isTidy_epsilonName
    · exact h.names n hn

theorem isTidy_of_mem_start_setStart {start : Option String} {n : String}
    (hn : n ∈ (g.setStart start).start) : Text.IsTidy n := by
  have hstart : (g.setStart start).start =
      if Text.trim (start.getD "") = "" then none else some (Text.trim (start.getD "")) := rfl
  rw [hstart] at hn
  split at hn
  · cases hn
  · next hne =>
    obtain rfl := Option.some.inj hn
    exact Text.isTidy_trim hne

/-- A grammar that is built of tidy sides is storable. -/
theorem isStorable_of_build {name description : String} {nonTerminals terminals : List String}
    {sides : List Sides} {start : Option String}
    (h : build name description nonTerminals terminals (sides.map .sides) start = .ok g)
    (hsides : ∀ s ∈ sides, s.IsTidy) : g.IsStorable := by
  obtain ⟨-, -, hproductions⟩ := build_sides_cases h
  refine ⟨Reachable.named (.build h), tagged_of_productions_eq hproductions, ?_, ?_⟩
  · obtain ⟨_, _, -, -, rfl⟩ := build_cases h
    exact fun n => isTidy_of_mem_start_setStart
  · rw [hproductions, List.forall_mem_map]
    exact fun s hs => isTidy_sides_tag g (hsides s hs)

theorem isStorable_of_toGrammar {d : Document} (h : d.toGrammar = .ok g) : g.IsStorable := by
  rcases d.toGrammar_cases with ⟨-, he⟩ | ⟨hnot, -⟩
  · rw [he] at h
    cases h
  · rw [Document.toGrammar_eq_build hnot] at h
    refine isStorable_of_build h ?_
    rw [List.forall_mem_map]
    exact fun r hr => Document.isTidy_tidied fun he => hnot (.inr ⟨r, hr, he⟩)

theorem isStorable_of_load {v : Value} (h : load v = .ok g) : g.IsStorable := by
  have hbind : ∀ e : Except Fault Document, e.bind Document.toGrammar = .ok g → g.IsStorable := by
    intro e he
    cases e with
    | error fault => cases he
    | ok d => exact isStorable_of_toGrammar he
  unfold load at h
  split at h
  · exact hbind _ h
  · exact hbind _ h

theorem isStorable_of_ofLines {start name description : String} {texts : List String}
    (h : ofLines start texts name description = .ok g) : g.IsStorable := by
  obtain ⟨lines, hlines, hbuild⟩ := ofLines_cases h
  refine isStorable_of_build hbuild fun s hs => ?_
  obtain ⟨l, hl, hs⟩ := List.mem_flatMap.1 hs
  have hread := forall_isRead hlines l hl
  have hd := hread.isDisplayable hs
  exact ⟨⟨hd.trim_eq, hd.ne_empty⟩, fun n hn => (hd.isWord n hn).isTidy⟩

/-! ### Rewritings -/

theorem IsStorable.adopt (h : g.IsStorable) (names introduced : List String) {sides : List Sides}
    (hsides : ∀ s ∈ sides, s.IsTidy) : (adopt names introduced sides g).2.IsStorable := by
  rcases adopt_cases h.named names introduced sides with
    ⟨_, he⟩ | ⟨_, g', -, he, -, -, hstart, hproductions, -, -⟩
  · rw [he]
    exact h
  · have hnamed := h.named.adopt names introduced sides
    rw [he] at hnamed ⊢
    refine ⟨hnamed, tagged_of_productions_eq hproductions, hstart ▸ h.start, ?_⟩
    rw [hproductions, List.forall_mem_map]
    exact fun s hs => isTidy_sides_tag g' (hsides s hs)

theorem isTidy_freshName {policy : CollisionPolicy} {taken : List String} {base n : String}
    (hb : Text.IsTidy base) (h : g.freshName policy taken base = .ok n) : Text.IsTidy n := by
  obtain ⟨-, k, rfl⟩ := freshName_spec h
  exact isTidy_iterate_prime hb k

/-- The new names of a rewriting are tidy. -/
theorem isTidy_foldlM_extend {policy : CollisionPolicy} {as : List String} {voc voc' : Extension}
    (has : ∀ a ∈ as, Text.IsTidy a) (hvoc : ∀ e ∈ voc.primes, Text.IsTidy e.2)
    (he : as.foldlM (g.extend policy) voc = .ok voc') : ∀ e ∈ voc'.primes, Text.IsTidy e.2 := by
  induction as generalizing voc with
  | nil =>
    obtain rfl : voc = voc' := Except.ok.inj he
    exact hvoc
  | cons a as ih =>
    rw [List.forall_mem_cons] at has
    rw [List.foldlM_cons] at he
    cases hf : g.freshName policy voc.taken a with
    | error fault => simp [extend, hf, bind, Except.bind] at he
    | ok n =>
      rw [extend, hf] at he
      refine ih has.2 ?_ he
      rw [List.forall_mem_append, List.forall_mem_singleton]
      exact ⟨hvoc, isTidy_freshName has.1 hf⟩

/-- What stands for a production without left recursion is tidy. -/
theorem isTidy_of_mem_withoutRecursionAll (h : g.IsStorable) {primes : List (String × String)}
    (hprimes : ∀ e ∈ primes, Text.IsTidy e.2) :
    ∀ s ∈ g.withoutRecursionAll primes g.productions, s.IsTidy := by
  intro s hs
  obtain ⟨p, hp, hs⟩ := mem_withoutRecursionAll.1 hs
  have hsides := h.sides p hp
  rcases hs with ⟨-, rfl⟩ | ⟨m, hm, hs⟩
  · exact hsides
  · have hprime : Text.IsTidy m := hprimes _ (OrderedMap.mem_of_get? hm)
    -- Whatever is written consists of names of the production, the new name and `ε`.
    have hnames : ∀ ns : List String, (∀ n ∈ ns, n ∈ p.names) →
        ∀ n ∈ ns ++ [m], Text.IsTidy n := by
      intro ns hns
      rw [List.forall_mem_append, List.forall_mem_singleton]
      exact ⟨fun n hn => hsides.names n (hns n hn), hprime⟩
    rcases hs with ⟨-, hs⟩ | ⟨-, rfl⟩ | hs
    · by_cases he : p.rest = []
      · simp [Production.recursiveTail, he] at hs
      · rw [recursiveTail_of_ne_nil he] at hs
        obtain rfl := List.mem_singleton.1 hs
        exact ⟨hprime, hnames _ fun n hn => List.mem_cons_of_mem _ hn⟩
    · refine ⟨hsides.antecedent, hnames _ fun n hn => ?_⟩
      obtain ⟨s, hs, rfl⟩ := List.mem_map.1 hn
      rw [Production.yield] at hs
      split at hs
      · cases hs
      · exact List.mem_map_of_mem hs
    · rw [closing, List.mem_append, List.mem_singleton] at hs
      rcases hs with hs | rfl
      · split at hs
        · cases hs
        · obtain rfl := List.mem_singleton.1 hs
          exact ⟨hsides.antecedent, List.forall_mem_singleton.2 hprime⟩
      · exact ⟨hprime, List.forall_mem_singleton.2 isTidy_epsilonName⟩

theorem IsStorable.eliminateLeftRecursion (h : g.IsStorable) (policy : CollisionPolicy) :
    (g.eliminateLeftRecursion policy).2.IsStorable := by
  have hrecursive : ∀ a ∈ g.leftRecursive, Text.IsTidy a := by
    intro a ha
    obtain ⟨p, hp, -, rfl⟩ := mem_leftRecursive_iff.1 ha
    exact (h.sides p hp).antecedent
  refine eliminateLeftRecursion_of_adopt (fun voc hvoc => h.adopt _ _ ?_) h
  have hprimes := isTidy_foldlM_extend hrecursive (List.forall_mem_nil _) hvoc
  exact isTidy_of_mem_withoutRecursionAll h hprimes

/-- What stands for a group is tidy. -/
theorem isTidy_of_mem_factoredGroup (h : g.IsStorable) {p : Production} (hp : p ∈ g.productions)
    {n : String} (hn : Text.IsTidy n) : ∀ s ∈ g.factoredGroup p n, s.IsTidy := by
  rw [factoredGroup, List.forall_mem_cons, List.forall_mem_map]
  have hsides := h.sides p hp
  refine ⟨⟨hsides.antecedent, ?_⟩, fun r hr => ⟨hn, ?_⟩⟩
  · rw [List.forall_mem_cons, List.forall_mem_singleton]
    exact ⟨hsides.names _ List.mem_cons_self, hn⟩
  · rw [groupRests, List.mem_eraseDups] at hr
    obtain ⟨q, hq, rfl⟩ := List.mem_map.1 hr
    rw [List.forall_mem_map]
    split
    · exact List.forall_mem_singleton.2 isTidy_epsilonName
    · exact fun s hs => (h.sides q (mem_group_iff.1 hq).1).names _
        (List.mem_map_of_mem (List.mem_cons_of_mem _ hs))

theorem isTidy_of_factoredAll (h : g.IsStorable) {policy : CollisionPolicy}
    {done : List (String × String)} {voc voc' : Extension} {ps : List Production}
    {sides : List Sides} (hps : ∀ p ∈ ps, p ∈ g.productions)
    (he : g.factoredAll policy done voc ps = .ok (voc', sides)) : ∀ s ∈ sides, s.IsTidy := by
  induction ps generalizing done voc sides with
  | nil =>
    obtain ⟨-, rfl⟩ := Prod.mk.inj (Except.ok.inj he)
    exact List.forall_mem_nil _
  | cons p ps ih =>
    rw [List.forall_mem_cons] at hps
    rcases factoredAll_cons he with ⟨-, rest, hrest, rfl⟩ | ⟨-, -, hrest⟩ |
      ⟨-, -, n, rest, hf, hrest, rfl⟩
    · rw [List.forall_mem_cons]
      exact ⟨h.sides p hps.1, ih hps.2 hrest⟩
    · exact ih hps.2 hrest
    · rw [List.forall_mem_append]
      have hn := isTidy_freshName (h.sides p hps.1).antecedent hf
      exact ⟨isTidy_of_mem_factoredGroup h hps.1 hn, ih hps.2 hrest⟩

theorem IsStorable.leftFactor (h : g.IsStorable) (policy : CollisionPolicy) :
    (g.leftFactor policy).2.IsStorable :=
  leftFactor_of_adopt
    (fun _ _ hall => h.adopt _ _ (isTidy_of_factoredAll h (fun _ hp => hp) hall)) h

theorem IsStorable.copy (h : g.IsStorable) : g.copy.IsStorable := by
  refine ⟨⟨h.named.nonTerminals, h.named.terminals⟩, tagged_retagged g g.nonTerminals, h.start, ?_⟩
  intro p hp
  obtain ⟨q, hq, rfl⟩ := List.mem_map.1 hp
  rw [h.tagged q hq]
  exact h.sides q hq

theorem IsStorable.normalize (h : g.IsStorable) {policy : CollisionPolicy} {n : Normalization}
    (hn : g.normalize policy = .ok n) : n.grammar.IsStorable :=
  normalize_of_rewritings (fun _ h => h.eliminateLeftRecursion policy)
    (fun _ h => h.leftFactor policy) IsStorable.copy hn h

/-! ### Saving and loading -/

/-- A storable grammar is no document that is refused. -/
theorem IsStorable.not_isRefused (h : g.IsStorable) : ¬ g.toDocument.IsRefused := by
  rintro (⟨n, hn, hreserved⟩ | ⟨r, hr, hblank⟩)
  · rcases List.mem_append.1 hn with hn | hn
    · rw [h.named.nonTerminals.trim_eq n hn] at hreserved
      exact h.named.nonTerminals.notMem_reserved n hn hreserved
    · rw [h.named.terminals.trim_eq n hn] at hreserved
      exact h.named.terminals.notMem_reserved n hn hreserved
  · obtain ⟨p, hp, rfl⟩ := List.mem_map.1 hr
    have hp := (h.sides p hp).antecedent
    exact hp.ne_empty (hp.trim_eq.symm.trans hblank)

theorem IsStorable.start_setStart (h : g.IsStorable) (g' : Grammar) :
    (g'.setStart g.start).start = g.start := by
  cases hs : g.start with
  | none => rfl
  | some n =>
    have hn := h.start n hs
    show (if Text.trim n = "" then none else some (Text.trim n)) = some n
    rw [hn.trim_eq, if_neg hn.ne_empty]

/-- **What was saved of a storable grammar is loaded as it was**, less what was
computed about the grammar. -/
theorem IsStorable.toGrammar_toDocument (h : g.IsStorable) : g.toDocument.toGrammar = .ok
    { name := g.name, description := g.description, nonTerminals := g.nonTerminals,
      terminals := g.terminals, start := g.start, productions := g.productions } := by
  have hrules : g.toDocument.rules.map Document.tidied = g.productions.map Production.sides := by
    rw [toDocument, List.map_map]
    exact List.map_congr_left fun p hp => Document.tidied_eq_self (h.sides p hp)
  have htags : (g.productions.map Production.sides).map (tag { nonTerminals := g.nonTerminals }) =
      g.productions := by
    rw [List.map_map]
    exact (List.map_congr_left h.tagged).trans (List.map_id' _)
  rw [Document.toGrammar_eq_build h.not_isRefused, hrules]
  refine (build_of_declared (declared_eq_self h.named.nonTerminals)
    (declared_eq_self h.named.terminals) g.name g.description _ g.start).trans ?_
  rw [htags]
  exact congrArg (fun start => (Except.ok
    { name := g.name, description := g.description, nonTerminals := g.nonTerminals,
      terminals := g.terminals, start, productions := g.productions } : Except Fault Grammar))
    (h.start_setStart g)

end Grammar

/-! ### Documents as values -/

namespace Value

section

variable {α : Type} {f : Value → Checked α} {w : α → Value} (h : ∀ a, f (w a) = .valid a)

include h

/-- The items of a list are read one by one. -/
theorem readItems_map (i : Nat) (as : List α) : readItems f i (as.map w) = .valid as := by
  induction as generalizing i with
  | nil => rfl
  | cons a as ih =>
    rw [List.map_cons, readItems, h, ih]
    rfl

theorem readList_map (as : List α) : readList f (.list (as.map w)) = .valid as :=
  readItems_map h 0 as

end

theorem readList_texts (ns : List String) : readList readText (.texts ns) = .valid ns :=
  readList_map (w := .text) (fun _ => rfl) ns

end Value

namespace Document

theorem readRule_ruleValue (complaint : FieldCause) (r : Sides) :
    readRule complaint (ruleValue r) = .valid r := by
  have hnames : Value.withDefault "rhs" [] (Value.readList Value.readText)
      [("lhs", .text r.antecedent), ("rhs", .texts r.names)] = .valid r.names := by
    show (Value.readList Value.readText (.texts r.names)).under _ = _
    rw [Value.readList_texts]
    rfl
  rw [ruleValue, readRule, Value.readObject, hnames]
  rfl

/-- **A document is read back from its value.** -/
theorem ofValue_toValue (d : Document) : ofValue d.toValue = .ok d := by
  have hstart : Value.readOptional Value.readText (.optionalText d.start) = .valid d.start := by
    cases d.start with
    | none => rfl
    | some n => rfl
  have hrules := Value.readList_map (readRule_ruleValue .notModel) d.rules
  have hread : read .notModel d.toValue =
      (Document.mk d.name d.description
        <$> (Value.readList Value.readText (.texts d.nonTerminals)).under (.key "non_terminals")
        <*> (Value.readList Value.readText (.texts d.terminals)).under (.key "terminals")
        <*> (Value.readOptional Value.readText (.optionalText d.start)).under (.key "start_symbol")
        <*> (Value.readList (readRule .notModel) (.list (d.rules.map ruleValue))).under
          (.key "rules")) :=
    rfl
  rw [ofValue, hread, Value.readList_texts, Value.readList_texts, hstart, hrules]
  rfl

end Document

namespace Grammar

/-! ### Grammars that are saved -/

/-- The grammars that are loaded or written as lines, and what normalizations
make of them. -/
inductive Produced : Grammar → Prop where
  | described {d : Document} {g : Grammar} (h : d.toGrammar = .ok g) : Produced g
  | loaded {v : Value} {g : Grammar} (h : load v = .ok g) : Produced g
  | written {start name description : String} {lines : List String} {g : Grammar}
      (h : ofLines start lines name description = .ok g) : Produced g
  | normalized {g : Grammar} {policy : CollisionPolicy} {n : Normalization} (h : Produced g)
      (hn : g.normalize policy = .ok n) : Produced n.grammar

theorem Produced.isStorable {g : Grammar} (h : g.Produced) : g.IsStorable := by
  induction h with
  | described h => exact isStorable_of_toGrammar h
  | loaded h => exact isStorable_of_load h
  | written h => exact isStorable_of_ofLines h
  | normalized _ hn ih => exact ih.normalize hn

/-- **A grammar that is saved and loaded again is the same**, from its name to
the tags of its productions, so that it is saved the same way again.  This holds
of the document itself and of its value. -/
theorem load_toDocument {g : Grammar} (h : g.Produced) :
    ∃ r, g.toDocument.toGrammar = .ok r ∧ load g.toDocument.toValue = .ok r ∧
      r.name = g.name ∧ r.description = g.description ∧ r.nonTerminals = g.nonTerminals ∧
      r.terminals = g.terminals ∧ r.start = g.start ∧ r.productions = g.productions ∧
      r.toDocument = g.toDocument := by
  have hgrammar := h.isStorable.toGrammar_toDocument
  refine ⟨_, hgrammar, ?_, rfl, rfl, rfl, rfl, rfl, rfl, rfl⟩
  have hload : load g.toDocument.toValue =
      (Document.ofValue g.toDocument.toValue).bind Document.toGrammar := rfl
  rw [hload, Document.ofValue_toValue]
  exact hgrammar

/-- Repeated names, names with blanks and a left recursive antecedent that is
not declared; a name made up for it is saved with the others. -/
theorem load_toDocument_normalized :
    let d : Document :=
      { name := " untidy ", nonTerminals := ["S", " S"], terminals := ["a\n", "", "a"],
        start := some " S ", rules := [⟨" S", ["A", " ", "a "]⟩, ⟨"A ", ["A", "a"]⟩, ⟨"A", []⟩] }
    let g : Grammar :=
      { name := " untidy ", nonTerminals := ["S"], terminals := ["a"], start := some "S"
        productions := [⟨"S", .terminal "A", [.terminal "a"]⟩,
          ⟨"A", .terminal "A", [.terminal "a"]⟩, ⟨"A", .epsilon, []⟩] }
    let m : Grammar :=
      { g with
        nonTerminals := ["S", "A'"], introduced := ["A'"]
        productions := [⟨"S", .terminal "A", [.terminal "a"]⟩,
          ⟨"A'", .terminal "a", [.nonTerminal "A'"]⟩, ⟨"A", .nonTerminal "A'", []⟩,
          ⟨"A'", .epsilon, []⟩] }
    d.toGrammar = .ok g ∧ g.normalize .refuse = .ok ⟨m, true, false⟩ ∧ m.Produced ∧
    ∃ r, m.toDocument.toGrammar = .ok r ∧ load m.toDocument.toValue = .ok r ∧
      r.name = m.name ∧ r.description = m.description ∧ r.nonTerminals = m.nonTerminals ∧
      r.terminals = m.terminals ∧ r.start = m.start ∧ r.productions = m.productions ∧
      r.toDocument = m.toDocument := by
  intro d g m
  have hd : d.toGrammar = .ok g := by decide +kernel
  have hn : g.normalize .refuse = .ok ⟨m, true, false⟩ := by decide +kernel
  have hm : m.Produced := .normalized (.described hd) hn
  exact ⟨hd, hn, hm, load_toDocument hm⟩

end Grammar

end PredictiveParsing
