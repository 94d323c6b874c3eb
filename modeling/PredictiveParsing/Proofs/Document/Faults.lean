import Mathlib.Data.List.Basic
import PredictiveParsing.Document.Xml
import PredictiveParsing.Proofs.Grammar.Consistency

/-
How the loading of a grammar fails.

A document is refused for the names it declares and for rules without an
antecedent, with one complaint for each of them.  A file is refused because no
document can be read from it, or for what its document is refused for.

* `exists_declared_iff` — names are declared if none of them is reserved;
* `Document.Complains` — the complaints about a document, in their order;
* `toGrammar_cases` — a document is refused with these complaints, and only if
  there are any;
* `load_text_cases` — everything the loading of a file can do;
* `load_faults` — there are no other failures.

Design notes:

* Declaring names refuses reserved ones as well, with a fault of its own.  That
  fault never gets out: the complaints leave nothing for it.
* A file in which a character is broken is set apart.  Not the reading of the
  file reports that, but what reads the XML.
-/
namespace PredictiveParsing

open Xml

namespace Grammar

/-- Names are declared unless one of them is reserved. -/
theorem exists_declared_iff {names : List String} :
    (∃ out, declared names = .ok out) ↔ ∀ n ∈ names, Text.trim n ∉ reserved := by
  constructor
  · rintro ⟨out, h⟩
    exact notMem_reserved_of_declared_eq_ok h
  · intro h
    cases hd : declared names with
    | ok out => exact ⟨out, rfl⟩
    | error fault =>
      obtain ⟨n, hn, hr, -⟩ := exists_of_declared_eq_error hd
      exact absurd hr (h n hn)

end Grammar

namespace Document

variable {d : Document}

/-! ### Documents that are refused -/

/-- The complaints about a document: one for each declaration of a reserved
name, in order, and one for each rule without an antecedent, in order. -/
structure Complains (d : Document) (declarations rules : List Diagnostic) : Prop where
  symbols_eq : declarations.map (·.symbol) =
    (((d.nonTerminals ++ d.terminals).map Text.trim).filter (· ∈ reserved)).map some
  about_name : ∀ c ∈ declarations, c.kind = .reservedSymbol ∧ c.severity = .error ∧
    ∃ n, c.symbol = some n ∧
      c.message = "'" ++ n ++ "' is reserved and cannot be declared as a grammar symbol."
  messages_eq : rules.map (·.message) =
    ((d.rules.zipIdx 1).filter fun r => Text.trim r.1.antecedent = "").map fun r =>
      "Rule " ++ toString r.2 ++ " has an empty left-hand side."
  about_rule : ∀ c ∈ rules, c.kind = .malformedRule ∧ c.severity = .error ∧ c.symbol = none

theorem complains_problems (d : Document) :
    d.Complains d.reservedDeclarations d.rulesWithoutAntecedent := by
  refine ⟨?_, ?_, ?_, ?_⟩
  · simp [reservedDeclarations, Diagnostic.about, Function.comp_def]
  · intro c hc
    obtain ⟨n, -, rfl⟩ := List.mem_map.1 hc
    exact ⟨rfl, rfl, n, rfl, rfl⟩
  · rw [rulesWithoutAntecedent, List.zipIdx_succ, List.filter_map, List.map_map, List.map_map]
    rfl
  · intro c hc
    obtain ⟨r, -, rfl⟩ := List.mem_map.1 hc
    exact ⟨rfl, rfl, rfl⟩

theorem reservedDeclarations_eq_nil_iff :
    d.reservedDeclarations = [] ↔ ∀ n ∈ d.nonTerminals ++ d.terminals, Text.trim n ∉ reserved := by
  rw [reservedDeclarations, List.map_eq_nil_iff, List.filter_eq_nil_iff, List.forall_mem_map]
  simp only [decide_eq_true_eq]

theorem rulesWithoutAntecedent_eq_nil_iff :
    d.rulesWithoutAntecedent = [] ↔ ∀ r ∈ d.rules, Text.trim r.antecedent ≠ "" := by
  rw [rulesWithoutAntecedent, List.map_eq_nil_iff, List.filter_eq_nil_iff]
  simp only [decide_eq_true_eq]
  constructor
  · intro h r hr
    rw [← List.zipIdx_map_fst 0 d.rules] at hr
    obtain ⟨e, he, rfl⟩ := List.mem_map.1 hr
    exact h e he
  · intro h e he
    exact h e.1 (List.fst_mem_of_mem_zipIdx he)

/-- A document is refused if it declares a reserved name or has a rule without
an antecedent. -/
def IsRefused (d : Document) : Prop :=
  (∃ n ∈ d.nonTerminals ++ d.terminals, Text.trim n ∈ reserved) ∨
    ∃ r ∈ d.rules, Text.trim r.antecedent = ""

theorem problems_eq_nil_iff : d.problems = [] ↔ ¬ d.IsRefused := by
  rw [problems, List.append_eq_nil_iff, reservedDeclarations_eq_nil_iff,
    rulesWithoutAntecedent_eq_nil_iff, IsRefused]
  simp only [ne_eq, not_or, not_exists, not_and]

/-- Any other document is built into a grammar. -/
theorem toGrammar_eq_build (h : ¬ d.IsRefused) : d.toGrammar =
    Grammar.build d.name d.description d.nonTerminals d.terminals
      ((d.rules.map tidied).map .sides) d.start := by
  rw [toGrammar, problems_eq_nil_iff.2 h, List.map_map]
  rfl

/-- **A document is refused with its complaints, or describes a grammar.** -/
theorem toGrammar_cases (d : Document) :
    (d.IsRefused ∧ d.toGrammar = .error (.invalidGrammar d.problems)) ∨
      (¬ d.IsRefused ∧ ∃ g, d.toGrammar = .ok g) := by
  by_cases hd : d.IsRefused
  · exact .inl ⟨hd, toGrammar_faulty fun h => problems_eq_nil_iff.1 h hd⟩
  · refine .inr ⟨hd, ?_⟩
    have hnone := problems_eq_nil_iff.2 hd
    obtain ⟨hplain, -⟩ := List.append_eq_nil_iff.1 hnone
    rw [reservedDeclarations_eq_nil_iff, List.forall_mem_append] at hplain
    obtain ⟨names, hnames⟩ := Grammar.exists_declared_iff.2 hplain.1
    obtain ⟨others, hothers⟩ := Grammar.exists_declared_iff.2 hplain.2
    exact ⟨_, (toGrammar_eq_build hd).trans
      (Grammar.build_of_declared hnames hothers d.name d.description _ d.start)⟩

/-! ### Files that cannot be read -/

theorem exists_of_mapM_eq_error {α β : Type} {f : α → Except Fault β} {as : List α} {fault : Fault}
    (h : as.mapM f = .error fault) : ∃ a ∈ as, f a = .error fault := by
  induction as with
  | nil => cases h
  | cons a as ih =>
    rw [List.mapM_cons] at h
    cases ha : f a with
    | error fault' =>
      rw [ha] at h
      cases h
      exact ⟨a, List.mem_cons_self, ha⟩
    | ok b =>
      cases has : as.mapM f with
      | error fault' =>
        rw [ha, has] at h
        cases h
        obtain ⟨c, hc, he⟩ := ih has
        exact ⟨c, List.mem_cons_of_mem a hc, he⟩
      | ok bs =>
        rw [ha, has] at h
        cases h

theorem family_of_rulesOf_eq_error {root : Element} {fault : Fault}
    (h : rulesOf root = .error fault) : fault.family = .document := by
  obtain ⟨r, -, hr⟩ := exists_of_mapM_eq_error h
  cases hs : hasSides root with
  | true =>
    simp only [hs, if_true, ruleOfSides] at hr
    split at hr
    · cases hr
    · cases hr
      rfl
  | false =>
    simp only [hs, Bool.false_eq_true, if_false, ruleOfText] at hr
    split at hr
    · cases hr
    · cases hr
      rfl

theorem family_of_ofElement_eq_error {root : Element} {fault : Fault}
    (h : ofElement root = .error fault) : fault.family = .document := by
  rw [ofElement] at h
  split at h
  · cases h
    rfl
  · cases hr : rulesOf root with
    | error fault' =>
      rw [hr] at h
      cases h
      exact family_of_rulesOf_eq_error hr
    | ok rules =>
      rw [hr] at h
      cases h

/-- A file that cannot be read as a document is refused as such. -/
theorem family_of_ofXml_eq_error {text : String} (hb : breakage? text = none) {fault : Fault}
    (h : ofXml text = .error fault) : fault.family = .document := by
  rw [ofXml, hb] at h
  dsimp only at h
  split at h
  · exact family_of_ofElement_eq_error h
  · cases h
    rfl

end Document

/-! ### All failures -/

namespace Grammar

/-- Everything the loading of a file can do: report a broken character, refuse
the file, refuse its document, or give a grammar. -/
theorem load_text_cases (text : String) :
    (∃ broken, breakage? text = some broken ∧
      load (.text text) = .error (.brokenCharacter broken.bytes broken.position)) ∨
    (∃ fault, Document.ofXml text = .error fault ∧ load (.text text) = .error fault ∧
      fault.family = .document) ∨
    (∃ d, Document.ofXml text = .ok d ∧ d.toGrammar = .error (.invalidGrammar d.problems) ∧
      load (.text text) = .error (.invalidGrammar d.problems)) ∨
    ∃ g, load (.text text) = .ok g := by
  cases hb : breakage? text with
  | some broken =>
    refine .inl ⟨broken, rfl, ?_⟩
    rw [load, Document.ofXml, hb]
    rfl
  | none =>
    cases hd : Document.ofXml text with
    | error fault =>
      refine .inr (.inl ⟨fault, rfl, ?_, Document.family_of_ofXml_eq_error hb hd⟩)
      rw [load, hd]
      rfl
    | ok d =>
      have hload : load (.text text) = d.toGrammar := by
        rw [load, hd]
        rfl
      rcases d.toGrammar_cases with ⟨-, he⟩ | ⟨-, g, he⟩
      · exact .inr (.inr (.inl ⟨d, rfl, he, hload.trans he⟩))
      · exact .inr (.inr (.inr ⟨g, hload.trans he⟩))

/-- **How loading fails.**  A document that declares a reserved name or has a
rule without an antecedent is refused with all complaints, in order; every other
document describes a grammar.  A file in which no character is broken is refused
because no document can be read from it, or with the complaints about its
document. -/
theorem load_faults :
    (∀ d : Document,
      ((∃ fault, d.toGrammar = .error fault) ↔
        (∃ n ∈ d.nonTerminals ++ d.terminals, Text.trim n ∈ reserved) ∨
          ∃ r ∈ d.rules, Text.trim r.antecedent = "") ∧
      ∀ fault, d.toGrammar = .error fault → ∃ declarations rules,
        fault = .invalidGrammar (declarations ++ rules) ∧ d.Complains declarations rules) ∧
    ∀ text, breakage? text = none → ∀ fault, load (.text text) = .error fault →
      (Document.ofXml text = .error fault ∧ fault.family = .document) ∨
        ∃ d, Document.ofXml text = .ok d ∧ d.toGrammar = .error fault ∧
          fault.family = .structure' := by
  have hrefused : ∀ (d : Document) fault, d.toGrammar = .error fault →
      d.IsRefused ∧ fault = .invalidGrammar d.problems := by
    intro d fault h
    rcases d.toGrammar_cases with ⟨hd, he⟩ | ⟨-, g, he⟩
    · rw [he] at h
      cases h
      exact ⟨hd, rfl⟩
    · rw [he] at h
      cases h
  refine ⟨fun d => ⟨⟨?_, ?_⟩, ?_⟩, ?_⟩
  · rintro ⟨fault, h⟩
    exact (hrefused d fault h).1
  · intro hd
    rcases d.toGrammar_cases with ⟨-, he⟩ | ⟨hnot, -⟩
    · exact ⟨_, he⟩
    · exact absurd hd hnot
  · intro fault h
    exact ⟨_, _, (hrefused d fault h).2, d.complains_problems⟩
  · intro text hb fault h
    rcases load_text_cases text with ⟨_, hbroken, -⟩ | ⟨fault', hd, he, hfamily⟩ |
      ⟨d, hd, hrefused, he⟩ | ⟨g, he⟩
    · rw [hb] at hbroken
      cases hbroken
    · rw [he] at h
      cases h
      exact .inl ⟨hd, hfamily⟩
    · rw [he] at h
      cases h
      exact .inr ⟨d, hd, hrefused, rfl⟩
    · rw [he] at h
      cases h

/-- Three complaints about a document, a rule without an arrow in a file of the
older kind, and a reserved name and a rule of blanks in one of the newer. -/
theorem load_faults_mixed :
    let d : Document := { nonTerminals := ["S", " ε"], terminals := ["$\t", "a"],
                          rules := [⟨"S", ["a"]⟩, ⟨" ", ["a"]⟩] }
    let older := "<grammar><rule><value>S a</value></rule></grammar>"
    let newer := "<grammar version='2.0'><terminal><value> $ </value></terminal>" ++
      "<rule><leftPart><value> </value></leftPart><rightPart/></rule></grammar>"
    let malformed : Fault := .unreadableRule 1 (.missingArrow "S a")
    let complaints : List Diagnostic := [.about .reservedSymbol "$"
        "'$' is reserved and cannot be declared as a grammar symbol.",
      { kind := .malformedRule, message := "Rule 1 has an empty left-hand side." }]
    (∃ declarations rules, d.toGrammar = .error (.invalidGrammar (declarations ++ rules)) ∧
      d.Complains declarations rules ∧ declarations.length = 2 ∧ rules.length = 1) ∧
    load (.text older) = .error malformed ∧ malformed.family = .document ∧
    load (.text newer) = .error (.invalidGrammar complaints) ∧
      (Fault.invalidGrammar complaints).family = .structure' := by
  intro d older newer malformed complaints
  obtain ⟨hdocument, hfile⟩ := load_faults
  have hrefused : ∃ fault, d.toGrammar = .error fault :=
    (hdocument d).1.2 (.inl ⟨" ε", by decide, by decide⟩)
  obtain ⟨fault, hfault⟩ := hrefused
  obtain ⟨declarations, rules, rfl, hc⟩ := (hdocument d).2 fault hfault
  have hnames := congrArg List.length hc.symbols_eq
  have hrules := congrArg List.length hc.messages_eq
  rw [List.length_map] at hnames hrules
  have holder : load (.text older) = .error malformed := by decide +kernel
  have hnewer : load (.text newer) = .error (.invalidGrammar complaints) := by decide +kernel
  refine ⟨⟨declarations, rules, hfault, hc, hnames, hrules⟩, holder, ?_, hnewer, ?_⟩
  · rcases hfile older (by decide +kernel) _ holder with ⟨-, hfamily⟩ | ⟨_, -, -, hfamily⟩
    · exact hfamily
    · cases hfamily
  · rcases hfile newer (by decide +kernel) _ hnewer with ⟨-, hfamily⟩ | ⟨_, -, -, hfamily⟩
    · cases hfamily
    · exact hfamily

end Grammar

end PredictiveParsing
