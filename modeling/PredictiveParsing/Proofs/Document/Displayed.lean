import Mathlib.Data.List.Forall2
import PredictiveParsing.Proofs.Document.RoundTrip
import PredictiveParsing.Proofs.Grammar.Lines

/-
The displayed form of a production tells its two sides.

So it does not matter whether productions are handed over by their displayed
form or by their names: not to a grammar, and not in a file, where the version
says which of the two its rules are.

* `Sides.IsDisplayable.parse_text` — a displayed production is read as it was;
* `Grammar.setProductions_displayed` — a grammar takes displayed productions;
* `Document.IsFile`, `Document.ListsTexts`, `Document.ListsSides` — files, and
  what their rules are;
* `ListsTexts.rulesOf_eq`, `ListsSides.rulesOf_eq` — how these are read;
* `listsTexts_rootOfTexts`, `listsSides_toElement` — files that are written;
* `Production.texts_determine` — displayed productions in place of their names.

Design notes:

* A name is there without its tag, so productions come back with the tags that
  the grammar has for their names.
* What a file holds is said by its root element, whatever else it holds and
  however it is laid out.
-/
namespace PredictiveParsing

open Xml

/-! ### Displayed productions -/

/-- **A displayed production is read as it was.** -/
theorem Sides.IsDisplayable.parse_text {s : Sides} (h : s.IsDisplayable) :
    Sides.parse s.text = .ok s := by
  rw [Sides.parse, h.cutAtArrow_text]
  dsimp only
  rw [h.trim_before, if_neg h.ne_empty, h.words_behind, Sides.orEpsilon_of_ne_nil h.names_ne_nil]

namespace Grammar

variable {ps : List Production}

theorem mapM_read_displayed (h : ∀ p ∈ ps, p.sides.IsDisplayable) :
    (ps.map fun p => ProductionItem.displayed p.text).mapM ProductionItem.read =
      .ok (ps.map Production.sides) := by
  rw [List.mapM_map]
  induction ps with
  | nil => rfl
  | cons p ps ih =>
    obtain ⟨hp, hps⟩ := List.forall_mem_cons.1 h
    have hread : (ProductionItem.read ∘ fun p : Production => .displayed p.text) p =
        .ok p.sides :=
      hp.parse_text
    rw [List.mapM_cons, hread, ih hps]
    rfl

/-- **A grammar takes displayed productions as it takes their sides**, with its
own tags. -/
theorem setProductions_displayed (h : ∀ p ∈ ps, p.sides.IsDisplayable) (g : Grammar) :
    setProductions (ps.map fun p => .displayed p.text) g =
        (.ok (), invalidate { g with productions := ps.map (Production.retag g.nonTerminals) }) ∧
      setProductions (ps.map fun p => .sides p.sides) g =
        (.ok (), invalidate { g with productions := ps.map (Production.retag g.nonTerminals) }) := by
  have hsides : (ps.map fun p => ProductionItem.sides p.sides) =
      (ps.map Production.sides).map .sides := by
    rw [List.map_map]
    rfl
  have htagged : (ps.map Production.sides).map g.tag =
      ps.map (Production.retag g.nonTerminals) := by
    rw [List.map_map]
    rfl
  rw [hsides, setProductions, setProductions, mapM_read_displayed h, mapM_read_sides, ← htagged]
  exact ⟨rfl, rfl⟩

end Grammar

/-! ### What files hold -/

namespace Document

/-- The text is a file with the given root element. -/
structure IsFile (text : String) (root : Element) : Prop where
  breakage_eq : breakage? text = none
  read_eq : Element.read? text = some root
  tag_eq : root.tag = "grammar"

/-- The element has a value, which is the given text but for blanks around it. -/
def HoldsValue (e : Element) (s : String) : Prop :=
  ∃ value, e.find? "value" = some value ∧ Text.trim value.text = s

/-- The element of a rule has elements for the two sides. -/
def HoldsSides (e : Element) (r : Sides) : Prop :=
  ∃ left right, e.find? "leftPart" = some left ∧ e.find? "rightPart" = some right ∧
    HoldsValue left r.antecedent ∧ List.Forall₂ HoldsValue (right.withTag "symbol") r.names

/-- The rules of a file of version 2.0 are the given ones. -/
structure ListsSides (root : Element) (rules : List Sides) : Prop where
  version : root.attribute? "version" = some "2.0"
  rules : List.Forall₂ HoldsSides (root.withTag "rule") rules

/-- The rules of a file of another version, such as 1.0, are the displayed forms
of the given ones. -/
structure ListsTexts (root : Element) (rules : List Sides) : Prop where
  version : root.attribute? "version" ≠ some "2.0"
  rules : List.Forall₂ (fun e r => HoldsValue e (Sides.text r)) (root.withTag "rule") rules

variable {text : String} {root e : Element} {r : Sides} {rules : List Sides}

theorem HoldsValue.valueText_eq {s : String} (h : HoldsValue e s) : valueText e = s := by
  obtain ⟨value, hvalue, rfl⟩ := h
  rw [valueText, hvalue]
  rfl

theorem map_valueText_eq {es : List Element} {names : List String}
    (h : List.Forall₂ HoldsValue es names) : es.map valueText = names := by
  induction h with
  | nil => rfl
  | cons he _ ih => rw [List.map_cons, he.valueText_eq, ih]

/-- A rule with elements for its sides is read as it is. -/
theorem HoldsSides.ruleOfSides_eq (h : HoldsSides e r) (hr : r.IsDisplayable) (number : Nat) :
    ruleOfSides number e = .ok r := by
  obtain ⟨left, right, hleft, hright, hantecedent, hnames⟩ := h
  have hnone : r.names.filter (· ≠ "") = r.names :=
    List.filter_eq_self.2 fun n hn => by simpa using (hr.isWord n hn).1
  simp only [ruleOfSides, hleft, hright, hantecedent.valueText_eq, map_valueText_eq hnames, hnone]

/-- A rule that is a displayed form is read as what is displayed. -/
theorem HoldsValue.ruleOfText_eq (h : HoldsValue e r.text) (hr : r.IsDisplayable) (number : Nat) :
    ruleOfText number e = .ok r := by
  rw [ruleOfText, h.valueText_eq, hr.parse_text]

/-- Rules are read if each of them is, whatever its number. -/
theorem mapM_zipIdx_eq_ok {read : Nat → Element → Except Fault Sides} {es : List Element}
    {Holds : Element → Sides → Prop} (h : List.Forall₂ Holds es rules)
    (hread : ∀ e r number, Holds e r → r.IsDisplayable → read number e = .ok r)
    (hrules : ∀ r ∈ rules, r.IsDisplayable) (first : Nat) :
    ((es.zipIdx first).mapM fun e => read (e.2 + 1) e.1) = .ok rules := by
  induction h generalizing first with
  | nil => rfl
  | cons he _ ih =>
    -- The number of a rule is only told where the rule is refused.
    obtain ⟨hr, hrules⟩ := List.forall_mem_cons.1 hrules
    rw [List.zipIdx_cons, List.mapM_cons, hread _ _ _ he hr, ih hrules]
    rfl

theorem ListsSides.rulesOf_eq (h : ListsSides root rules) (hrules : ∀ r ∈ rules, r.IsDisplayable) :
    rulesOf root = .ok rules := by
  have hversion : hasSides root = true := by
    rw [hasSides, h.version]
    rfl
  simp only [rulesOf, hversion, if_true]
  exact mapM_zipIdx_eq_ok h.rules (fun _ _ number he hr => he.ruleOfSides_eq hr number) hrules 0

theorem ListsTexts.rulesOf_eq (h : ListsTexts root rules) (hrules : ∀ r ∈ rules, r.IsDisplayable) :
    rulesOf root = .ok rules := by
  have hversion : hasSides root = false := by
    rw [hasSides, beq_eq_false_iff_ne]
    exact h.version
  simp only [rulesOf, hversion, Bool.false_eq_true, if_false]
  exact mapM_zipIdx_eq_ok h.rules (fun _ _ number he hr => he.ruleOfText_eq hr number) hrules 0

/-- A file is read if its rules are. -/
theorem IsFile.exists_ofXml (h : IsFile text root) (hrules : rulesOf root = .ok rules) :
    ∃ d, ofXml text = .ok d ∧ d.rules = rules := by
  rw [ofXml, h.breakage_eq]
  simp only [h.read_eq, ofElement, h.tag_eq, hrules]
  exact ⟨_, rfl, rfl⟩

/-! ### Files that are written -/

/-- The root element of a file whose rules are displayed forms. -/
def rootOfTexts (rules : List Sides) : Element :=
  .node "grammar" [("version", "1.0")] ""
    [.branch "rule-set" ((rules.map Sides.text).map (valueElement "rule"))]

theorem isFile_writeDocument (h : e.IsWritable) (htag : e.tag = "grammar") :
    IsFile e.writeDocument (e.laidOut 0) := by
  refine ⟨?_, Element.read?_writeDocument h, ?_⟩
  · rw [breakage?, Element.ofText_writeDocument]
  · rw [Element.tag_laidOut, htag]

theorem holdsValue_valueElement (depth : Nat) (tag : String) {value : String}
    (h : Text.trim value = value) : HoldsValue ((valueElement tag value).laidOut depth) value :=
  ⟨.leaf "value" value, find?_value depth tag value, h⟩

/-- A displayed production has no blanks at its ends. -/
theorem trim_text (hr : r.IsDisplayable) : Text.trim r.text = r.text := by
  rw [Text.trim, hr.trimChars_text, String.ofList_toList]

theorem holdsSides_ruleElement (depth : Nat) (hr : r.IsDisplayable) :
    HoldsSides ((ruleElement r).laidOut depth) r := by
  refine ⟨_, _, find?_leftPart depth r, find?_rightPart depth r,
    holdsValue_valueElement _ _ hr.trim_eq, ?_⟩
  rw [withTag_symbol, List.forall₂_map_left_iff, List.forall₂_same]
  exact fun n hn => holdsValue_valueElement _ _ (hr.isWord n hn).trim_eq

/-- The file of a document lists its rules. -/
theorem listsSides_toElement {d : Document} (h : ∀ r ∈ d.rules, r.IsDisplayable) :
    ListsSides (d.toElement.laidOut 0) d.rules := by
  constructor
  · rw [Element.attribute?, Element.attributes_laidOut]
    rfl
  · rw [withTag_toElement d (by decide), if_neg (by decide), if_neg (by decide), if_pos rfl,
      List.nil_append, List.nil_append, List.forall₂_map_left_iff, List.forall₂_same]
    exact fun r hr => holdsSides_ruleElement 2 (h r hr)

theorem listsTexts_rootOfTexts (h : ∀ r ∈ rules, r.IsDisplayable) :
    ListsTexts ((rootOfTexts rules).laidOut 0) rules := by
  constructor
  · rw [Element.attribute?, Element.attributes_laidOut]
    show some "1.0" ≠ some "2.0"
    decide
  · have hbelow : ((rootOfTexts rules).laidOut 0).withTag "rule" =
        (rules.map Sides.text).map fun v => (valueElement "rule" v).laidOut 2 := by
      rw [Element.withTag_laidOut, if_neg (by show "grammar" ≠ "rule"; decide), List.nil_append,
        show (rootOfTexts rules).children =
          [.branch "rule-set" ((rules.map Sides.text).map (valueElement "rule"))] from rfl,
        List.flatMap_singleton, withTag_values _ (by decide) (by decide), if_pos rfl]
    rw [hbelow, List.map_map, List.forall₂_map_left_iff, List.forall₂_same]
    exact fun r hr => holdsValue_valueElement 2 "rule" (trim_text (h r hr))

/-- A displayed production can be written if its names can. -/
theorem isWritableChar_text {d : Document} (hd : d.IsWritable) (hr : r ∈ d.rules) :
    ∀ c ∈ r.text.toList, IsWritableChar c := by
  simp only [IsWritable, texts, List.forall_mem_cons, List.forall_mem_append,
    List.forall_mem_flatMap] at hd
  obtain ⟨hantecedent, hnames⟩ := hd.2.2.2 r hr
  have hmarks : ∀ c ∈ [' ', '→', ' '], IsWritableChar c := by
    decide
  intro c hc
  have htext : r.text.toList =
      r.antecedent.toList ++ ([' ', '→', ' '] ++ (Text.join " " r.names).toList) :=
    r.toList_text
  rw [htext, List.mem_append, List.mem_append] at hc
  rcases hc with hc | hc | hc
  · exact hantecedent c hc
  · exact hmarks c hc
  · rcases Text.mem_join hc with rfl | ⟨n, hn, hc⟩
    · decide
    · exact hnames n hn c hc

theorem isWritable_rootOfTexts {d : Document} (hd : d.IsWritable) :
    (rootOfTexts d.rules).IsWritable := by
  refine .node (by decide) (isPlainAttribute_version _ (by decide)) (by decide) (by decide)
    (List.forall_mem_singleton.2 ?_)
  refine Element.isWritable_branch (by decide) ?_
  rw [List.forall_mem_map, List.forall_mem_map]
  exact fun r hr => isWritable_valueElement (by decide) (isWritableChar_text hd hr)

end Document

/-! ### Displayed forms in place of names -/

open Document

/-- **The displayed forms of productions are as good as their names**, if each
antecedent is trimmed, not empty and without an arrow, and each name behind the
arrow is a word.  Each of them is read as the two sides of its production.  A
grammar that is given all of them has the same productions as one that is given
the sides, with its own tags, which are the old ones if those are the grammar's.
A file whose rules are the displayed forms, in a version without sides, has the
same rules as a file that has the sides; and there are both kinds of files for
all rules that can be written. -/
theorem Production.texts_determine {ps : List Production}
    (h : ∀ p ∈ ps, p.sides.IsDisplayable) :
    (∀ p ∈ ps, Sides.parse p.text = .ok p.sides) ∧
    (∀ g : Grammar, ∃ g' : Grammar,
      Grammar.setProductions (ps.map fun p => .displayed p.text) g = (.ok (), g') ∧
      Grammar.setProductions (ps.map fun p => .sides p.sides) g = (.ok (), g') ∧
      g'.productions = ps.map (fun p => g.tag p.sides) ∧
      g'.productions.map Production.sides = ps.map Production.sides ∧
      (g'.productions = ps ↔ ∀ p ∈ ps, p.retag g.nonTerminals = p)) ∧
    (∀ old new oldRoot newRoot,
      IsFile old oldRoot → ListsTexts oldRoot (ps.map Production.sides) →
      IsFile new newRoot → ListsSides newRoot (ps.map Production.sides) →
      ∃ d d', ofXml old = .ok d ∧ ofXml new = .ok d' ∧
        d.rules = ps.map Production.sides ∧ d'.rules = ps.map Production.sides) ∧
    (∀ d : Document, d.IsWritable → d.rules = ps.map Production.sides →
      ∃ old oldRoot newRoot, IsFile old oldRoot ∧ ListsTexts oldRoot (ps.map Production.sides) ∧
        IsFile d.toXml newRoot ∧ ListsSides newRoot (ps.map Production.sides)) := by
  have hrules : ∀ r ∈ ps.map Production.sides, r.IsDisplayable := List.forall_mem_map.2 h
  refine ⟨fun p hp => (h p hp).parse_text, fun g => ?_, ?_, ?_⟩
  · obtain ⟨hdisplayed, hsides⟩ := Grammar.setProductions_displayed h g
    refine ⟨_, hdisplayed, hsides, rfl, ?_, ?_⟩
    · show (ps.map (Production.retag g.nonTerminals)).map Production.sides = _
      rw [List.map_map]
      refine List.map_congr_left fun p _ => ?_
      rw [Function.comp_apply, sides, antecedent_retag, names_retag, sides]
    · show ps.map (Production.retag g.nonTerminals) = ps ↔ _
      conv_lhs => rhs; rw [← List.map_id ps]
      exact List.map_inj_left
  · intro old new oldRoot newRoot hold htexts hnew hsides
    obtain ⟨d, hd, hdrules⟩ := hold.exists_ofXml (htexts.rulesOf_eq hrules)
    obtain ⟨d', hd', hdrules'⟩ := hnew.exists_ofXml (hsides.rulesOf_eq hrules)
    exact ⟨d, d', hd, hd', hdrules, hdrules'⟩
  · intro d hd he
    rw [← he] at hrules ⊢
    exact ⟨_, _, _, isFile_writeDocument (isWritable_rootOfTexts hd) rfl,
      listsTexts_rootOfTexts hrules, isFile_writeDocument hd.toElement rfl,
      listsSides_toElement hrules⟩

/-- An arrow of either kind as a name, the one in ASCII also in an antecedent,
and both reserved names. -/
theorem Production.texts_determine_arrows :
    let ps : List Production := [⟨"A -> B", .terminal "→", [.terminal "->"]⟩,
      ⟨"S", .nonTerminal "S", [.endMarker, .terminal "A"]⟩, ⟨"S", .epsilon, []⟩]
    let rules : List Sides := [⟨"A -> B", ["→", "->"]⟩, ⟨"S", ["S", "$", "A"]⟩, ⟨"S", ["ε"]⟩]
    let texts := ["A -> B → → ->", "S → S $ A", "S → ε"]
    let g : Grammar := { nonTerminals := ["S"] }
    (∀ p ∈ ps, p.sides.IsDisplayable) ∧ ps.map Production.text = texts ∧
    Sides.parse "A -> B → → ->" = .ok ⟨"A -> B", ["→", "->"]⟩ ∧
    (Grammar.setProductions (texts.map .displayed) g).2.productions = ps ∧
    ∃ old oldRoot, IsFile old oldRoot ∧ ListsTexts oldRoot rules ∧
      ∃ d d', ofXml old = .ok d ∧ ofXml ({ rules } : Document).toXml = .ok d' ∧
        d.rules = rules ∧ d'.rules = rules := by
  intro ps rules texts g
  have hparts : ∀ p ∈ ps, (Text.trim p.antecedent = p.antecedent ∧ p.antecedent ≠ "" ∧
      '→' ∉ p.antecedent.toList) ∧ p.names ≠ [] ∧
        ∀ n ∈ p.names, n ≠ "" ∧ (n.toList.all fun c => !Text.isBlank c) = true := by
    decide +kernel
  have hdisplayable : ∀ p ∈ ps, p.sides.IsDisplayable := by
    intro p hp
    obtain ⟨⟨htrim, hne, harrow⟩, hnil, hwords⟩ := hparts p hp
    refine ⟨htrim, hne, harrow, hnil, fun n hn => ⟨(hwords n hn).1, fun c hc => ?_⟩⟩
    simpa using List.all_eq_true.1 (hwords n hn).2 c hc
  have htexts : ps.map Production.text = texts := by decide +kernel
  obtain ⟨hparse, hgrammar, hread, hwritten⟩ := Production.texts_determine hdisplayable
  obtain ⟨g', hg', -, -, -, hsame⟩ := hgrammar g
  have hitems : (ps.map fun p => ProductionItem.displayed p.text) = texts.map .displayed := by
    rw [← htexts, List.map_map]
    rfl
  rw [hitems] at hg'
  obtain ⟨old, oldRoot, newRoot, hold, hholdsTexts, hnew, hholdsSides⟩ :=
    hwritten { rules } (by decide) rfl
  refine ⟨hdisplayable, htexts, hparse _ List.mem_cons_self, ?_, old, oldRoot, hold, hholdsTexts,
    hread old _ oldRoot newRoot hold hholdsTexts hnew hholdsSides⟩
  rw [hg']
  exact hsame.2 (by decide)

end PredictiveParsing
