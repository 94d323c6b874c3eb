import PredictiveParsing.Document.Xml
import PredictiveParsing.Proofs.Xml.Reading

/-
A document that was written as XML is read as it was, but for blanks.

* `Document.trimmed` — a document with all of its texts trimmed;
* `Document.IsWritable` — the documents that can be written;
* `Document.ofElement_laidOut` — the element of a document with its layout
  describes the document;
* `Document.ofXml_toXml` — reading what was written.

Design notes:

* No tag of a document occurs at two places with different meanings, so looking
  for a tag at any depth finds what was written there and nothing else.
-/
namespace PredictiveParsing

open Xml

namespace Document

/-- A document with all of its texts trimmed; blank names are dropped from
rules, and a blank start symbol is none. -/
def trimmed (d : Document) : Document where
  name := Text.trim d.name
  description := Text.trim d.description
  nonTerminals := d.nonTerminals.map Text.trim
  terminals := d.terminals.map Text.trim
  start := (d.start.map Text.trim).filter (· ≠ "")
  rules := d.rules.map tidied

/-- All texts of a document. -/
def texts (d : Document) : List String :=
  d.name :: d.description :: (d.nonTerminals ++ d.terminals ++ d.start.toList ++
    d.rules.flatMap fun r => r.antecedent :: r.names)

/-- A document all of whose characters can be written. -/
def IsWritable (d : Document) : Prop :=
  ∀ s ∈ d.texts, ∀ c ∈ s.toList, IsWritableChar c

instance (d : Document) : Decidable d.IsWritable :=
  inferInstanceAs (Decidable (∀ s ∈ d.texts, ∀ c ∈ s.toList, IsWritableChar c))

/-! ### Values with their layout -/

section

variable (depth : Nat)

@[simp] theorem tag_valueElement (tag value : String) : (valueElement tag value).tag = tag :=
  rfl

@[simp] theorem children_valueElement (tag value : String) :
    (valueElement tag value).children = [.leaf "value" value] :=
  rfl

theorem find?_value (tag value : String) :
    ((valueElement tag value).laidOut depth).find? "value" = some (.leaf "value" value) := by
  rw [Element.find?_laidOut]
  exact congrArg some (Element.laidOut_leaf _ _ _)

/-- A value is read as it was written, but for blanks around it. -/
theorem valueText_valueElement (tag value : String) :
    valueText ((valueElement tag value).laidOut depth) = Text.trim value := by
  rw [valueText, find?_value]
  rfl

/-- An element with a value has no other tags in it. -/
theorem withTag_valueElement {tag : String} (h : tag ≠ "value") (t value : String) :
    ((valueElement t value).laidOut depth).withTag tag =
      if t = tag then [(valueElement t value).laidOut depth] else [] := by
  rw [Element.withTag_laidOut, tag_valueElement, children_valueElement, List.flatMap_singleton,
    Element.laidOut_leaf, Element.withTag_leaf (Ne.symm h), List.append_nil]

/-- The elements with a tag below an element that holds nothing but values. -/
theorem withTag_values {tag parent : String} (h : tag ≠ "value") (hparent : parent ≠ tag)
    (t : String) (values : List String) :
    ((Element.branch parent (values.map (valueElement t))).laidOut depth).withTag tag =
      if t = tag then values.map fun v => (valueElement t v).laidOut (depth + 1) else [] :=
  Element.withTag_branch_map hparent (withTag_valueElement (depth + 1) h t) values

/-! ### Rules with their layout -/

theorem find?_leftPart (r : Sides) : ((ruleElement r).laidOut depth).find? "leftPart" =
    some ((valueElement "leftPart" r.antecedent).laidOut (depth + 1)) := by
  rw [Element.find?_laidOut]
  rfl

theorem find?_rightPart (r : Sides) : ((ruleElement r).laidOut depth).find? "rightPart" =
    some ((Element.branch "rightPart" (r.names.map (valueElement "symbol"))).laidOut
      (depth + 1)) := by
  rw [Element.find?_laidOut]
  rfl

theorem withTag_symbol (names : List String) :
    ((Element.branch "rightPart" (names.map (valueElement "symbol"))).laidOut depth).withTag
      "symbol" = names.map fun v => (valueElement "symbol" v).laidOut (depth + 1) := by
  rw [withTag_values _ (by decide) (by decide), if_pos rfl]

/-- A rule is read as it was written, but for blanks. -/
theorem ruleOfSides_ruleElement (number : Nat) (r : Sides) :
    ruleOfSides number ((ruleElement r).laidOut depth) = .ok (tidied r) := by
  simp only [ruleOfSides, find?_leftPart, find?_rightPart, withTag_symbol, List.map_map,
    Function.comp_def, valueText_valueElement]
  rfl

/-- What is inside of a rule is neither a rule nor declared. -/
theorem withTag_ruleElement {tag : String}
    (h : tag ∉ ["value", "leftPart", "rightPart", "symbol"]) (r : Sides) :
    ((ruleElement r).laidOut depth).withTag tag =
      if "rule" = tag then [(ruleElement r).laidOut depth] else [] := by
  simp only [List.mem_cons, List.not_mem_nil, or_false, not_or] at h
  obtain ⟨hvalue, hleft, hright, hsymbol⟩ := h
  have hsides : (ruleElement r).children = [valueElement "leftPart" r.antecedent,
      .branch "rightPart" (r.names.map (valueElement "symbol"))] :=
    rfl
  rw [Element.withTag_laidOut, hsides, List.flatMap_cons, List.flatMap_singleton,
    withTag_valueElement _ hvalue, if_neg (Ne.symm hleft),
    withTag_values _ hvalue (Ne.symm hright), if_neg (Ne.symm hsymbol), List.append_nil,
    List.append_nil]
  rfl

/-- The elements with a tag below the element that holds the rules. -/
theorem withTag_rules {tag : String}
    (h : tag ∉ ["rule-set", "value", "leftPart", "rightPart", "symbol"]) (rules : List Sides) :
    ((Element.branch "rule-set" (rules.map ruleElement)).laidOut depth).withTag tag =
      if "rule" = tag then rules.map fun r => (ruleElement r).laidOut (depth + 1) else [] := by
  obtain ⟨hset, h⟩ := not_or.1 (mt List.mem_cons.2 h)
  exact Element.withTag_branch_map (Ne.symm hset) (withTag_ruleElement (depth + 1) h) rules

end

/-! ### Documents with their layout -/

/-- Where the elements with a tag are that makes up a list. -/
theorem withTag_toElement (d : Document) {tag : String}
    (h : tag ∈ ["non-terminal", "terminal", "rule"]) :
    (d.toElement.laidOut 0).withTag tag =
      (if "non-terminal" = tag then
        d.nonTerminals.map fun v => (valueElement "non-terminal" v).laidOut 2 else []) ++
      (if "terminal" = tag then
        d.terminals.map fun v => (valueElement "terminal" v).laidOut 2 else []) ++
      (if "rule" = tag then d.rules.map fun r => (ruleElement r).laidOut 2 else []) := by
  have hothers : ∀ tag ∈ ["non-terminal", "terminal", "rule"],
      tag ≠ "value" ∧ "grammar" ≠ tag ∧ "name" ≠ tag ∧ "description" ≠ tag ∧
        "init-symbol" ≠ tag ∧ "non-terminal-symbols" ≠ tag ∧ "terminal-symbols" ≠ tag ∧
          tag ∉ ["rule-set", "value", "leftPart", "rightPart", "symbol"] := by
    decide
  obtain ⟨hvalue, hgrammar, hname, hdescription, hstart, hnonTerminals, hterminals, hrules⟩ :=
    hothers tag h
  rw [Element.withTag_laidOut, show d.toElement.tag = "grammar" from rfl, if_neg hgrammar,
    List.nil_append]
  simp only [toElement, Element.children, List.flatMap_cons, List.flatMap_nil, Element.laidOut_leaf, Element.withTag_leaf hname,
    Element.withTag_leaf hdescription, Element.withTag_leaf hstart,
    withTag_values _ hvalue hnonTerminals, withTag_values _ hvalue hterminals,
    withTag_rules _ hrules, List.nil_append, List.append_nil, List.append_assoc]

theorem valuesOf_toElement (d : Document) :
    valuesOf (d.toElement.laidOut 0) "non-terminal" = d.nonTerminals.map Text.trim ∧
      valuesOf (d.toElement.laidOut 0) "terminal" = d.terminals.map Text.trim := by
  have hvalues (t : String) (values : List String) :
      ((values.map fun v => (valueElement t v).laidOut 2).filter
        fun e => (e.find? "value").isSome) = values.map fun v => (valueElement t v).laidOut 2 := by
    refine List.filter_eq_self.2 fun e he => ?_
    obtain ⟨v, -, rfl⟩ := List.mem_map.1 he
    rw [find?_value]
    rfl
  constructor
  · rw [valuesOf, withTag_toElement d (by decide)]
    simp [hvalues, valueText_valueElement]
  · rw [valuesOf, withTag_toElement d (by decide)]
    simp [hvalues, valueText_valueElement]

theorem rulesOf_toElement (d : Document) :
    rulesOf (d.toElement.laidOut 0) = .ok (d.rules.map tidied) := by
  have hsides : hasSides (d.toElement.laidOut 0) = true := by
    rw [hasSides, Element.attribute?, Element.attributes_laidOut]
    rfl
  have helements : (d.toElement.laidOut 0).withTag "rule" =
      d.rules.map fun r => (ruleElement r).laidOut 2 := by
    rw [withTag_toElement d (by decide), if_neg (by decide), if_neg (by decide), if_pos rfl]
    rfl
  have hread (r : Sides × Nat) :
      ruleOfSides (r.2 + 1) ((ruleElement r.1).laidOut 2) = pure (tidied r.1) :=
    ruleOfSides_ruleElement 2 _ _
  rw [rulesOf, hsides, helements, List.zipIdx_map, List.mapM_map]
  show d.rules.zipIdx.mapM (fun r => ruleOfSides (r.2 + 1) ((ruleElement r.1).laidOut 2)) = _
  have hrules : d.rules.zipIdx.map (fun r => tidied r.1) = d.rules.map tidied := by
    rw [show (fun r : Sides × Nat => tidied r.1) = tidied ∘ Prod.fst from rfl, ← List.map_map,
      List.zipIdx_map_fst]
  simp only [hread]
  rw [List.mapM_pure, hrules]
  rfl

/-- The element of a document with its layout describes the document. -/
theorem ofElement_laidOut (d : Document) :
    ofElement (d.toElement.laidOut 0) = .ok d.trimmed := by
  have htag : (d.toElement.laidOut 0).tag = "grammar" := by
    rw [Element.tag_laidOut]
    rfl
  have hfind (tag text : String) (h : d.toElement.find? tag = some (.leaf tag text)) :
      textOf ((d.toElement.laidOut 0).find? tag) = Text.trim text := by
    rw [Element.find?_laidOut, h, Option.map_some, Element.laidOut_leaf]
    rfl
  obtain ⟨hnonTerminals, hterminals⟩ := valuesOf_toElement d
  rw [ofElement, htag, if_neg (by decide), rulesOf_toElement, hfind "name" d.name rfl,
    hfind "description" d.description rfl, hfind "init-symbol" (d.start.getD "") rfl, hnonTerminals,
    hterminals]
  have hstart : (if Text.trim (d.start.getD "") = "" then none
      else some (Text.trim (d.start.getD ""))) = d.trimmed.start := by
    rw [trimmed]
    cases d.start with
    | none => rfl
    | some s => simp [Option.filter]
  show Except.ok _ = Except.ok _
  rw [hstart]
  rfl

/-- The version of a file is an attribute that can be written. -/
theorem isPlainAttribute_version :
    ∀ version ∈ ["1.0", "2.0"], ∀ a ∈ [("version", version)], IsPlainAttribute a := by
  refine List.forall_mem_cons.2 ⟨?_, List.forall_mem_singleton.2 ?_⟩
  · exact List.forall_mem_singleton.2 ⟨by decide, by decide, by decide, by simp [isSpace]⟩
  · exact List.forall_mem_singleton.2 ⟨by decide, by decide, by decide, by simp [isSpace]⟩

theorem isWritable_valueElement {t : String} (ht : IsPlainName t) {v : String}
    (hv : ∀ c ∈ v.toList, IsWritableChar c) : (valueElement t v).IsWritable :=
  Element.isWritable_branch ht
    (List.forall_mem_singleton.2 (Element.isWritable_leaf (by decide) hv))

/-- The element of a document can be written if the document can. -/
theorem IsWritable.toElement {d : Document} (h : d.IsWritable) : d.toElement.IsWritable := by
  simp only [IsWritable, texts, List.forall_mem_cons, List.forall_mem_append, Option.mem_toList,
    List.forall_mem_flatMap] at h
  obtain ⟨hname, hdescription, ⟨⟨hnonTerminals, hterminals⟩, hstart⟩, hrules⟩ := h
  refine .node (by decide) (isPlainAttribute_version _ (by decide)) (by decide) (by decide) ?_
  simp only [List.forall_mem_cons]
  refine ⟨Element.isWritable_leaf (by decide) hname,
    Element.isWritable_leaf (by decide) hdescription, Element.isWritable_branch (by decide) ?_,
    Element.isWritable_branch (by decide) ?_, Element.isWritable_leaf (by decide) ?_,
    Element.isWritable_branch (by decide) ?_, List.forall_mem_nil _⟩
  · exact List.forall_mem_map.2 fun v hv => isWritable_valueElement (by decide) (hnonTerminals v hv)
  · exact List.forall_mem_map.2 fun v hv => isWritable_valueElement (by decide) (hterminals v hv)
  · cases hs : d.start with
    | none => simp
    | some s => exact hstart s hs
  · refine List.forall_mem_map.2 fun r hr => ?_
    obtain ⟨hantecedent, hnames⟩ := hrules r hr
    refine Element.isWritable_branch (by decide) ?_
    simp only [List.forall_mem_cons]
    refine ⟨isWritable_valueElement (by decide) hantecedent, Element.isWritable_branch (by decide) ?_,
      List.forall_mem_nil _⟩
    exact List.forall_mem_map.2 fun v hv => isWritable_valueElement (by decide) (hnames v hv)

/-- What was written of a document is read as the document, but for blanks. -/
theorem ofXml_toXml {d : Document} (h : d.IsWritable) : ofXml d.toXml = .ok d.trimmed := by
  have hbreakage : breakage? d.toXml = none := by
    rw [breakage?, toXml, Element.ofText_writeDocument]
  have hread : Element.read? d.toXml = some (d.toElement.laidOut 0) :=
    Element.read?_writeDocument h.toElement
  rw [ofXml, hbreakage, hread]
  exact ofElement_laidOut d

/-- Markup in names stays, names of blanks are emptied or dropped, and a name
that is declared twice stays twice. -/
theorem ofXml_toXml_of_markup :
    let d : Document :=
      { name := " <a & \"b\"> ]]>\n", description := "\t", nonTerminals := ["S ", "A&B", "A&B"],
        terminals := ["<", " "], start := some " ",
        rules := [⟨" S", ["A&B", " ", "", "<"]⟩, ⟨"A&B", []⟩] }
    d.IsWritable ∧ ofXml d.toXml = .ok
      { name := "<a & \"b\"> ]]>", description := "", nonTerminals := ["S", "A&B", "A&B"],
        terminals := ["<", ""], start := none,
        rules := [⟨"S", ["A&B", "<"]⟩, ⟨"A&B", []⟩] } := by
  intro d
  have hd : d.IsWritable := by decide
  have htrimmed : d.trimmed =
      { name := "<a & \"b\"> ]]>", description := "", nonTerminals := ["S", "A&B", "A&B"],
        terminals := ["<", ""], start := none,
        rules := [⟨"S", ["A&B", "<"]⟩, ⟨"A&B", []⟩] } := by
    decide
  exact ⟨hd, (ofXml_toXml hd).trans (congrArg Except.ok htrimmed)⟩

end Document

end PredictiveParsing
