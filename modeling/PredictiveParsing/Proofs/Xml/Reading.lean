import Mathlib.Data.List.Nodup
import Mathlib.Logic.Relation
import PredictiveParsing.Proofs.Xml.Layout
import PredictiveParsing.Xml.Assembly

/-
A document that was written is read as the element it was written for.

* `Step`, `Proceeds` — reading and taking one token after the other;
* `exists_tokens` — what a text amounts to is what its tokens do;
* `Frame.withChildren` — an element behind some children;
* `proceeds_write` — reading what was written of an element;
* `Element.read?_writeDocument` — reading a whole document.

Design notes:

* A step reads one token off the text and takes it at once, so that what is
  left and what it amounts to so far are told together.  That is how the
  induction on elements goes: what is written of an element leads from wherever
  an element may stand to behind that element.
-/
namespace PredictiveParsing.Xml

/-! ### One token after the other -/

variable {entity? : String → Frame → Option Frame}

/-- One token is read off a text and taken.  Nothing is defined, so it must not
be a document type. -/
def Step (entity? : String → Frame → Option Frame) (s s' : List Char × Assembly) : Prop :=
  ∃ t, s.1 ≠ [] ∧ Token.read? .utf8 s.1 = some (t, s'.1) ∧ doctypeOf [t] = none ∧
    Assembly.take? {} entity? s.2 t = some s'.2

/-- One token is read and taken after the other. -/
abbrev Proceeds (entity? : String → Frame → Option Frame) :
    List Char × Assembly → List Char × Assembly → Prop :=
  Relation.ReflTransGen (Step entity?)

theorem doctypeOf_cons (t : Token) (ts : List Token) :
    doctypeOf (t :: ts) = (doctypeOf [t]).or (doctypeOf ts) := by
  cases t <;> rfl

theorem next_reader {cs rest : List Char} {t : Token} (hne : cs ≠ [])
    (h : Token.read? .utf8 cs = some (t, rest)) :
    (Token.reader .utf8).next cs = some (some t, rest) := by
  cases cs with
  | nil => exact absurd rfl hne
  | cons c cs =>
    show (Token.read? .utf8 (c :: cs)).map _ = _
    rw [h]
    rfl

/-- What a text amounts to is what its tokens do. -/
theorem exists_tokens {cs : List Char} {a a' : Assembly}
    (h : Proceeds entity? (cs, a) ([], a')) :
    ∃ ts, Token.readAll? .utf8 cs = some ts ∧ doctypeOf ts = none ∧
      ts.foldlM (Assembly.take? {} entity?) a = some a' := by
  generalize hs : (cs, a) = s at h
  induction h using Relation.ReflTransGen.head_induction_on generalizing cs a with
  | refl =>
    obtain ⟨rfl, rfl⟩ := Prod.mk.inj hs
    have hstop : (Token.reader .utf8).next [] = some (none, []) := rfl
    refine ⟨[], ?_, rfl, rfl⟩
    rw [Token.readAll?, Reader.all?_of_next_none hstop]
    rfl
  | head hstep _ ih =>
    subst hs
    obtain ⟨t, hne, hread, htype, htake⟩ := hstep
    obtain ⟨ts, hts, hnone, hfold⟩ := ih rfl
    refine ⟨t :: ts, ?_, ?_, ?_⟩
    · rw [Token.readAll?] at hts ⊢
      obtain ⟨⟨ts', left⟩, hall, rfl⟩ := Option.map_eq_some_iff.1 hts
      rw [Reader.all?_of_next_some (next_reader hne hread), hall]
      rfl
    · rw [doctypeOf_cons, htype, hnone]
      rfl
    · rw [List.foldlM_cons, htake]
      exact hfold

/-! ### Tags -/

/-- An element as it begins. -/
def Frame.ofTag (tag : String) (attributes : List (String × String)) : Frame :=
  { name := ⟨none, tag⟩, tag, attributes, scope := .outermost }

theorem value?_map_char (text : String) :
    Definitions.value? {} false (text.toList.map .char) = some text := by
  have hpieces (cs : List Char) : (cs.map Reference.char).mapM
      (Definitions.charsOf? (Definitions.textInValue? {} 0)) = some (cs.map ([·])) := by
    rw [List.mapM_map]
    exact List.mapM_pure
  rw [Definitions.value?, show ({} : Definitions).entities.length = 0 from rfl,
    Definitions.replaced?, hpieces]
  simp [← List.flatMap_def]

/-- An attribute without a prefix. -/
def unprefixed (a : String × String) : QualifiedName × String :=
  (⟨none, a.1⟩, a.2)

/-- Where nothing is defined, a tag has the attributes it shows. -/
theorem attributes?_ofWritten (tag : String) (as : List (String × String)) :
    Definitions.attributes? {} (Tag.ofWritten tag as) = some (as.map unprefixed) := by
  have hvalue (a : String × String) :
      (Definitions.value? {} false (Attribute.ofWritten a).value).map
        (fun v => ((Attribute.ofWritten a).name, v)) = some (unprefixed a) := by
    rw [Attribute.ofWritten, value?_map_char]
    rfl
  have hshown : (Tag.ofWritten tag as).attributes.mapM (fun a =>
      (Definitions.value? {} false a.value).map fun v => (a.name, v)) =
        some (as.map unprefixed) := by
    rw [Tag.ofWritten, List.mapM_map]
    simp only [Function.comp_def, hvalue]
    exact List.mapM_pure
  have hrules : Definitions.rulesOf {} (Tag.ofWritten tag as).name = [] := rfl
  have htokenized (n : QualifiedName) : Definitions.isTokenized [] n = false := rfl
  simp only [Definitions.attributes?, hrules, htokenized, hshown]
  simp

section

variable {as : List (String × String)} (has : ∀ a ∈ as, a.1 ≠ "xmlns")

theorem declares?_unprefixed {a : String × String} (h : a.1 ≠ "xmlns") :
    Scope.declares? (unprefixed a).1 = none := by
  simp [Scope.declares?, unprefixed, h]

include has

theorem enter?_outermost : Scope.enter? .outermost (as.map unprefixed) = some .outermost := by
  rw [Scope.enter?]
  induction as with
  | nil => rfl
  | cons a as ih =>
    obtain ⟨ha, has⟩ := List.forall_mem_cons.1 has
    have hstays : Scope.declare? .outermost (unprefixed a) = some .outermost := by
      rw [Scope.declare?, declares?_unprefixed ha]
    rw [List.map_cons, List.foldlM_cons, hstays]
    exact ih has

/-- Attributes without a namespace keep their names. -/
theorem attributes?_outermost (hnodup : (as.map (·.1)).Nodup) :
    Scope.attributes? .outermost (as.map unprefixed) = some as := by
  have hnames : ((as.map unprefixed).map (·.1)).Nodup := by
    have hinj : Function.Injective fun n : String => (⟨none, n⟩ : QualifiedName) :=
      fun m n h => (QualifiedName.mk.inj h).2
    have hmap := List.Nodup.map hinj hnodup
    rw [List.map_map] at hmap ⊢
    exact hmap
  have hplain : (as.map unprefixed).filter (fun a => (Scope.declares? a.1).isNone) =
      as.map unprefixed := by
    refine List.filter_eq_self.2 fun b hb => ?_
    obtain ⟨a, ha, rfl⟩ := List.mem_map.1 hb
    rw [declares?_unprefixed (has a ha)]
    rfl
  have hresolved : (as.map unprefixed).mapM
      (fun a => (Scope.attributeName? .outermost a.1).map fun n => (n, a.2)) = some as := by
    rw [List.mapM_map]
    exact List.mapM_pure.trans (congrArg some (List.map_id as))
  simp only [Scope.attributes?, hplain, hresolved, guard, if_pos hnames]
  simp [hnodup]

/-- A tag without a namespace begins an element without one. -/
theorem open?_ofWritten (tag : String) (hnodup : (as.map (·.1)).Nodup) :
    Assembly.open? {} .outermost (Tag.ofWritten tag as) = some (Frame.ofTag tag as) := by
  have htag : Scope.tagName? .outermost (Tag.ofWritten tag as).name = some tag := rfl
  rw [Assembly.open?, attributes?_ofWritten]
  simp only [Option.bind_eq_bind, Option.bind_some, enter?_outermost has, htag,
    attributes?_outermost has hnodup]
  rfl

end

variable (entity?)

/-- Where an element may stand: at the beginning, or inside others. -/
inductive Assembly.Admits : Assembly → List Frame → Prop where
  | before : Admits (before false) []
  | within {f : Frame} {fs : List Frame} (h : f.scope = .outermost) : Admits (within f fs) (f :: fs)

section

variable {a : Assembly} {outer : List Frame} {tag : String} {as : List (String × String)}

theorem step_opening (h : a.Admits outer) (ht : IsPlainName tag)
    (has : ∀ a ∈ as, IsPlainAttribute a) (hnodup : (as.map (·.1)).Nodup) (rest : List Char) :
    Step entity? ('<' :: (writtenTag tag as ++ '>' :: rest), a)
      (rest, .within (.ofTag tag as) outer) := by
  refine ⟨_, by simp, Token.read?_opening ht has rest, rfl, ?_⟩
  have hopen := open?_ofWritten (fun a ha => (has a ha).ne_xmlns) tag hnodup
  cases h with
  | before => rw [Assembly.take?, hopen]; rfl
  | within hf => rw [Assembly.take?, hf, hopen]; rfl

theorem step_lone (h : a.Admits outer) (ht : IsPlainName tag)
    (has : ∀ a ∈ as, IsPlainAttribute a) (hnodup : (as.map (·.1)).Nodup) (rest : List Char) :
    Step entity? ('<' :: (writtenTag tag as ++ ' ' :: '/' :: '>' :: rest), a)
      (rest, .finish (.node tag as "" []) outer) := by
  refine ⟨_, by simp, Token.read?_lone ht has rest, rfl, ?_⟩
  have hopen := open?_ofWritten (fun a ha => (has a ha).ne_xmlns) tag hnodup
  cases h with
  | before => rw [Assembly.take?, hopen]; rfl
  | within hf => rw [Assembly.take?, hf, hopen]; rfl

theorem step_closing (outer : List Frame) {f : Frame} (hf : f.name = ⟨none, tag⟩)
    (ht : IsPlainName tag) (rest : List Char) :
    Step entity? (writtenEnd tag ++ rest, .within f outer) (rest, .finish f.close outer) := by
  refine ⟨_, by simp [writtenEnd], Token.read?_closing ht rest, rfl, ?_⟩
  exact if_pos hf.symm

end

/-! ### Text -/

namespace Frame

/-- More parts of text, the latest first. -/
def addTexts (texts : List (List Char)) (f : Frame) : Frame :=
  { f with text := texts ++ f.text }

@[simp] theorem addText_scope (cs : List Char) (f : Frame) : (f.addText cs).scope = f.scope := by
  rw [addText]
  split <;> rfl

@[simp] theorem addTexts_children (texts : List (List Char)) (f : Frame) :
    (f.addTexts texts).children = f.children :=
  rfl

@[simp] theorem addTexts_addTexts (s t : List (List Char)) (f : Frame) :
    (f.addTexts s).addTexts t = f.addTexts (t ++ s) := by
  simp [addTexts]

/-- Text counts where there are no children. -/
theorem addText_of_children_eq_nil {f : Frame} (h : f.children = []) (cs : List Char) :
    f.addText cs = f.addTexts [cs] := by
  simp [addText, addTexts, h]

/-- Behind children it does not. -/
theorem addText_of_children_ne_nil {f : Frame} (h : f.children ≠ []) (cs : List Char) :
    f.addText cs = f := by
  simp [addText, h]

end Frame

section

variable {f : Frame} (fs : List Frame)

/-- Markup ends character data. -/
theorem isData_head?_cons {c : Char} (hc : Token.isData c = false) (cs : List Char) :
    ∀ d ∈ (c :: cs).head?, Token.isData d = false := by
  intro d hd
  obtain rfl := Option.some.inj hd
  exact hc

theorem isData_head?_writtenEnd (tag : String) (rest : List Char) :
    ∀ d ∈ (writtenEnd tag ++ rest).head?, Token.isData d = false :=
  isData_head?_cons rfl _

theorem isData_head?_write (e : Element) (depth : Nat) (rest : List Char) :
    ∀ d ∈ (e.write depth ++ rest).head?, Token.isData d = false := by
  obtain ⟨behind, hwrite⟩ := e.write_eq_cons depth
  rw [hwrite]
  exact isData_head?_cons rfl _

theorem step_data {cs rest : List Char} (hne : cs ≠ []) (hcs : ∀ c ∈ cs, Token.IsPlainData c)
    (hrest : ∀ c ∈ rest.head?, Token.isData c = false) :
    Step entity? (cs ++ rest, .within f fs) (rest, .within (f.addText cs) fs) :=
  ⟨_, by simp [hne], Token.read?_data hne hcs hrest, rfl, rfl⟩

theorem step_reference {name : String} {c : Char} (h : (name, c) ∈ Reference.predefined)
    (rest : List Char) :
    Step entity? ('&' :: (name.toList ++ [';']) ++ rest, .within f fs)
      (rest, .within (f.addText [c]) fs) :=
  ⟨_, by simp, Token.read?_reference h rest, rfl, rfl⟩

/-- Characters that stand for themselves make up at most one part of a text. -/
theorem proceeds_data {cs rest : List Char} (hcs : ∀ c ∈ cs, Token.IsPlainData c)
    (hrest : ∀ c ∈ rest.head?, Token.isData c = false) (hf : f.children = []) :
    ∃ texts : List (List Char), texts.reverse.flatten = cs ∧
      Proceeds entity? (cs ++ rest, .within f fs) (rest, .within (f.addTexts texts) fs) := by
  by_cases hne : cs = []
  · subst hne
    exact ⟨[], rfl, .refl⟩
  · refine ⟨[cs], by simp, .single ?_⟩
    rw [← Frame.addText_of_children_eq_nil hf]
    exact step_data entity? fs hne hcs hrest

/-- The text of an element is read as it was written.  What has been looked at
already but stands for itself is kept in `run`: it is one part with what
follows, up to the next reference. -/
theorem proceeds_escaped (cs : List Char) {run rest : List Char}
    (hrun : ∀ c ∈ run, Token.IsPlainData c)
    (hrest : ∀ c ∈ rest.head?, Token.isData c = false) (hf : f.children = []) :
    ∃ texts : List (List Char), texts.reverse.flatten = run ++ cs ∧
      Proceeds entity? (run ++ (cs.flatMap escapedChar ++ rest), .within f fs)
        (rest, .within (f.addTexts texts) fs) := by
  induction cs generalizing run f with
  | nil =>
    rw [List.append_nil]
    exact proceeds_data entity? fs hrun hrest hf
  | cons c cs ih =>
    rcases escapedChar_cases c with ⟨he, hplain⟩ | ⟨name, hname, he⟩
    · have hrun' : ∀ d ∈ run ++ [c], Token.IsPlainData d := by
        simpa using fun d hd => hd.elim (hrun d) fun hd => hd ▸ hplain
      obtain ⟨texts, htexts, hproceeds⟩ := ih hrun' hf
      refine ⟨texts, by simpa using htexts, ?_⟩
      simpa [he] using hproceeds
    · -- What is kept in `run` ends at the reference.
      rw [List.flatMap_cons, List.append_assoc, he]
      have hmark := isData_head?_cons (c := '&') rfl
        (name.toList ++ [';'] ++ (cs.flatMap escapedChar ++ rest))
      obtain ⟨first, hfirst, hflush⟩ := proceeds_data entity? fs hrun hmark hf
      have hstep : Step entity? _ (_, .within ((f.addTexts first).addText [c]) fs) :=
        step_reference entity? fs hname (cs.flatMap escapedChar ++ rest)
      rw [Frame.addText_of_children_eq_nil (by simpa using hf), Frame.addTexts_addTexts] at hstep
      obtain ⟨texts, htexts, hproceeds⟩ := ih (f := f.addTexts ([c] :: first))
        (List.forall_mem_nil _) (by simpa using hf)
      rw [Frame.addTexts_addTexts] at hproceeds
      exact ⟨texts ++ [c] :: first, by simp [htexts, hfirst],
        hflush.trans (.head hstep hproceeds)⟩

end

/-! ### Elements -/

namespace Frame

/-- An element behind some children, each on a line of its own. -/
def withChildren (depth : Nat) : List Element → Frame → Frame
  | [], f => f
  | c :: cs, f => withChildren depth cs ((f.addText (newLine depth)).addChild (c.laidOut depth))

/-- Only the first of the lines counts as text. -/
theorem withChildren_of_children_ne_nil {f : Frame} (h : f.children ≠ []) (depth : Nat)
    (cs : List Element) :
    f.withChildren depth cs =
      { f with children := (Element.laidOutForest depth cs).reverse ++ f.children } := by
  induction cs generalizing f with
  | nil => rfl
  | cons c cs ih =>
    rw [withChildren, addText_of_children_ne_nil h, ih (List.cons_ne_nil _ _)]
    simp [addChild, Element.laidOutForest]

theorem withChildren_ofTag (tag : String) (as : List (String × String)) (depth : Nat) (c : Element)
    (cs : List Element) :
    (ofTag tag as).withChildren depth (c :: cs) =
      { ofTag tag as with
        text := [newLine depth]
        children := (Element.laidOutForest depth (c :: cs)).reverse } := by
  rw [withChildren, withChildren_of_children_ne_nil (List.cons_ne_nil _ _)]
  simp [addChild, addText, ofTag, Element.laidOutForest]

end Frame

theorem isPlainData_newLine (depth : Nat) : ∀ c ∈ newLine depth, Token.IsPlainData c := by
  intro c hc
  rcases List.mem_cons.1 hc with rfl | hc
  · exact ⟨by decide, by decide, by decide⟩
  · rw [List.eq_of_mem_replicate hc]
    exact ⟨by decide, by decide, by decide⟩

/-- Elements on lines of their own are read as children. -/
theorem proceeds_writeForest {depth : Nat} {cs : List Element} {f : Frame} {fs : List Frame}
    (hscope : f.scope = .outermost) (rest : List Char)
    (hcs : ∀ c ∈ cs, ∀ {f : Frame} (rest : List Char), f.scope = .outermost →
      Proceeds entity? (c.write depth ++ rest, .within f fs)
        (rest, .within (f.addChild (c.laidOut depth)) fs)) :
    Proceeds entity? (Element.writeForest depth cs ++ rest, .within f fs)
      (rest, .within (f.withChildren depth cs) fs) := by
  induction cs generalizing f with
  | nil => exact .refl
  | cons c cs ih =>
    obtain ⟨hc, hcs⟩ := List.forall_mem_cons.1 hcs
    have hline : Step entity? _ (_, .within (f.addText (newLine depth)) fs) :=
      step_data entity? fs (List.cons_ne_nil _ _) (isPlainData_newLine depth)
        (isData_head?_write c depth (Element.writeForest depth cs ++ rest))
    rw [Element.writeForest, List.append_assoc, List.append_assoc, Frame.withChildren]
    refine .head hline ((hc _ ?_).trans (ih ?_ hcs))
    · rw [Frame.addText_scope, hscope]
    · show (f.addText (newLine depth)).scope = .outermost
      rw [Frame.addText_scope, hscope]

section

variable {a : Assembly} {outer : List Frame} {tag : String} {as : List (String × String)}

/-- An element with nothing but a text is read as it was written. -/
theorem proceeds_text (ha : a.Admits outer) (ht : IsPlainName tag)
    (has : ∀ a ∈ as, IsPlainAttribute a) (hnodup : (as.map (·.1)).Nodup) (text : String)
    (rest : List Char) :
    Proceeds entity?
      ('<' :: (writtenTag tag as ++ '>' :: (escaped text ++ (writtenEnd tag ++ rest))), a)
      (rest, .finish (.node tag as text []) outer) := by
  obtain ⟨texts, htexts, hread⟩ := proceeds_escaped entity? outer text.toList
    (f := .ofTag tag as) (List.forall_mem_nil _)
    (isData_head?_writtenEnd tag rest) rfl
  have hclose : ((Frame.ofTag tag as).addTexts texts).close = .node tag as text [] := by
    simp [Frame.close, Frame.addTexts, Frame.ofTag, htexts]
  have hend := step_closing entity? outer
    (f := (Frame.ofTag tag as).addTexts texts) rfl ht rest
  rw [hclose] at hend
  exact .head (step_opening entity? ha ht has hnodup _) (hread.tail hend)

/-- An element with children is read as it was written, if they are. -/
theorem proceeds_children (ha : a.Admits outer) (ht : IsPlainName tag)
    (has : ∀ a ∈ as, IsPlainAttribute a) (hnodup : (as.map (·.1)).Nodup) (depth : Nat)
    {c : Element} {cs : List Element} (rest : List Char)
    (hcs : ∀ e ∈ c :: cs, ∀ {f : Frame} (rest : List Char), f.scope = .outermost →
      Proceeds entity? (e.write (depth + 1) ++ rest, .within f outer)
        (rest, .within (f.addChild (e.laidOut (depth + 1))) outer)) :
    Proceeds entity?
      ('<' :: (writtenTag tag as ++ '>' :: (Element.writeForest (depth + 1) (c :: cs) ++
        (newLine depth ++ (writtenEnd tag ++ rest)))), a)
      (rest, .finish (.node tag as (.ofList (newLine (depth + 1)))
        (Element.laidOutForest (depth + 1) (c :: cs))) outer) := by
  have hread := proceeds_writeForest entity? (f := .ofTag tag as) rfl
    (newLine depth ++ (writtenEnd tag ++ rest)) hcs
  have hframe := Frame.withChildren_ofTag tag as (depth + 1) c cs
  generalize (Frame.ofTag tag as).withChildren (depth + 1) (c :: cs) = f at hread hframe
  have hchildren : f.children ≠ [] := by simp [hframe, Element.laidOutForest]
  have hclose : f.close = .node tag as (.ofList (newLine (depth + 1)))
      (Element.laidOutForest (depth + 1) (c :: cs)) := by
    simp [hframe, Frame.close, Frame.ofTag]
  -- The line of the closing tag stands behind children, so it leaves no trace.
  have hline : Step entity? _ (_, .within (f.addText (newLine depth)) outer) :=
    step_data entity? outer (List.cons_ne_nil _ _) (isPlainData_newLine depth)
      (isData_head?_writtenEnd tag rest)
  rw [Frame.addText_of_children_ne_nil hchildren] at hline
  have hend : Step entity? (_, .within f outer) _ :=
    step_closing entity? outer (by rw [hframe]; rfl) ht rest
  rw [hclose] at hend
  exact .head (step_opening entity? ha ht has hnodup _) ((hread.tail hline).tail hend)

end

/-- What was written of an element is read as the element. -/
theorem proceeds_write {e : Element} (h : e.IsWritable) (depth : Nat) {a : Assembly}
    {outer : List Frame} (ha : a.Admits outer) (rest : List Char) :
    Proceeds entity? (e.write depth ++ rest, a) (rest, .finish (e.laidOut depth) outer) := by
  induction h generalizing depth a outer rest with
  | @node t as s cs tag attributes nodup text children ih =>
    cases cs with
    | nil =>
      by_cases hs : s = ""
      · subst hs
        have hlone := step_lone entity? ha tag attributes nodup rest
        simpa [Element.write, Element.laidOut] using Relation.ReflTransGen.single hlone
      · have htext := proceeds_text entity? ha tag attributes nodup s rest
        simpa [Element.write, Element.laidOut, hs] using htext
    | cons c cs =>
      have hcs := proceeds_children entity? ha tag attributes nodup depth rest
        fun e he f rest hf => ih e he (depth + 1) (.within hf) rest
      simpa [Element.write, Element.laidOut] using hcs

/-! ### Documents -/

namespace Element

/-- The declaration of every document. -/
def declaration : List Char :=
  "<?xml version=\"1.0\" encoding=\"UTF-8\"?>".toList

/-- It says nothing about standing alone. -/
theorem afterDeclaration?_declaration (cs : List Char) :
    afterDeclaration? (declaration ++ cs) = some (false, cs) := by
  have hparts : partReader.all? " version=\"1.0\" encoding=\"UTF-8\"".toList =
      some ([("version", "1.0"), ("encoding", "UTF-8")], []) := by
    have hversion : partReader.next " version=\"1.0\" encoding=\"UTF-8\"".toList =
        some (some ("version", "1.0"), " encoding=\"UTF-8\"".toList) := by
      decide
    have hencoding : partReader.next " encoding=\"UTF-8\"".toList =
        some (some ("encoding", "UTF-8"), []) := by
      decide
    have hstop : partReader.next [] = some (none, []) := rfl
    rw [Reader.all?_of_next_some hversion, Reader.all?_of_next_some hencoding,
      Reader.all?_of_next_none hstop]
    rfl
  have hfront : after? "<?xml".toList (declaration ++ cs) =
      some (" version=\"1.0\" encoding=\"UTF-8\"".toList ++ ('?' :: ['>'] ++ cs)) :=
    rfl
  have hcut : Text.cutAt ['?', '>']
      (" version=\"1.0\" encoding=\"UTF-8\"".toList ++ ('?' :: ['>'] ++ cs)) =
        some (" version=\"1.0\" encoding=\"UTF-8\"".toList, cs) :=
    Text.cutAt_of_notMem (by decide) _ _
  simp only [afterDeclaration?, hfront, hcut, hparts]
  rfl

/-- Reading the lines of a document, behind its declaration. -/
theorem IsWritable.proceeds_lines {e : Element} (h : e.IsWritable) :
    Proceeds entity? ('\n' :: (e.write 0 ++ ['\n']), .before false) ([], .after (e.laidOut 0)) := by
  have hfirst : Step entity? ('\n' :: (e.write 0 ++ ['\n']), .before false)
      (e.write 0 ++ ['\n'], .before false) :=
    ⟨_, List.cons_ne_nil _ _, Token.read?_data (List.cons_ne_nil _ _) (isPlainData_newLine 0)
      (isData_head?_write e 0 ['\n']), rfl, rfl⟩
  have hlast : Step entity? (['\n'], .after (e.laidOut 0)) ([], .after (e.laidOut 0)) :=
    ⟨_, List.cons_ne_nil _ _, Token.read?_data (List.cons_ne_nil _ _) (isPlainData_newLine 0)
      (by simp), rfl, rfl⟩
  exact .head hfirst ((proceeds_write entity? h 0 .before ['\n']).tail hlast)

/-- A document is its declaration and the lines of its element. -/
theorem toList_writeDocument (e : Element) :
    e.writeDocument.toList = declaration ++ '\n' :: (e.write 0 ++ ['\n']) := by
  have hdeclaration : "<?xml version=\"1.0\" encoding=\"UTF-8\"?>\n".toList =
      declaration ++ ['\n'] := by
    decide
  have hend : "\n".toList = ['\n'] := by
    decide
  have hwritten : e.writeDocument =
      "<?xml version=\"1.0\" encoding=\"UTF-8\"?>\n" ++ .ofList (e.write 0) ++ "\n" :=
    rfl
  rw [hwritten, String.toList_append, String.toList_append, hdeclaration, hend,
    String.toList_ofList (l := e.write 0), List.append_assoc, List.append_assoc,
    List.singleton_append]

theorem ofText_writeDocument (e : Element) : Encoding.ofText e.writeDocument = .utf8 := by
  have hfront : e.writeDocument.toList = '<' :: '?' ::
      ("xml version=\"1.0\" encoding=\"UTF-8\"?>".toList ++ '\n' :: (e.write 0 ++ ['\n'])) :=
    toList_writeDocument e
  exact Encoding.ofText_of_plain hfront (by decide) (by decide)

theorem IsWritable.isWritableChar_writeDocument {e : Element} (h : e.IsWritable) :
    ∀ c ∈ e.writeDocument.toList, IsWritableChar c := by
  have hdeclaration : ∀ c ∈ declaration, IsWritableChar c := by
    decide
  have hline : ∀ c ∈ ['\n'], IsWritableChar c := by
    decide
  rw [toList_writeDocument, List.forall_mem_append, List.forall_mem_cons]
  exact ⟨hdeclaration, by decide, List.forall_mem_append.2 ⟨h.isWritableChar 0, hline⟩⟩

/-- What the characters of a document amount to that was written. -/
theorem IsWritable.ofChars?_writeDocument {e : Element} (h : e.IsWritable) :
    Assembly.ofChars? .utf8 (e.writeDocument.toList.map fun c => (c, Encoding.utf8.sizeOf c)) =
      some ({}, .after (e.laidOut 0)) := by
  have hchars := h.isWritableChar_writeDocument
  have hfeeds :
      Text.withLineFeeds (withoutMark e.writeDocument.toList) = e.writeDocument.toList := by
    have hmark : withoutMark e.writeDocument.toList = e.writeDocument.toList := by
      rw [toList_writeDocument]
      rfl
    rw [hmark, Text.withLineFeeds_eq_self]
    exact fun hr => (hchars _ hr).2 rfl
  have hallowed : e.writeDocument.toList.all isXmlChar = true :=
    List.all_eq_true.2 fun c hc => (hchars c hc).1
  have hbehind : afterDeclaration? e.writeDocument.toList =
      some (false, '\n' :: (e.write 0 ++ ['\n'])) := by
    rw [toList_writeDocument]
    exact afterDeclaration?_declaration _
  obtain ⟨tokens, htokens, htype, hfold⟩ :=
    exists_tokens (h.proceeds_lines (Frame.withEntity? {} 0))
  simp only [Assembly.ofChars?, List.map_map, Function.comp_def, List.map_id', hfeeds, hallowed,
    hbehind, htokens, htype, Option.bind_eq_bind, Option.bind_some, guard]
  have hproportion : isInProportion .utf8
      (e.writeDocument.toList.map fun c => (c, Encoding.utf8.sizeOf c)) false none = true :=
    rfl
  rw [if_pos trivial, if_pos hproportion]
  show (Assembly.ofTokens? {} tokens).bind (fun a => some (({} : Definitions), a)) = _
  rw [Assembly.ofTokens?, show ({} : Definitions).entities.length = 0 from rfl, hfold]
  rfl

/-- What was written as a document is read as the element. -/
theorem read?_writeDocument {e : Element} (h : e.IsWritable) :
    read? e.writeDocument = some (e.laidOut 0) := by
  have hcharacters : Encoding.utf8.charactersOf? e.writeDocument = some e.writeDocument.toList :=
    rfl
  simp only [read?, ofText_writeDocument, hcharacters, h.ofChars?_writeDocument,
    Option.bind_eq_bind, Option.bind_some]
  rfl

end Element

end PredictiveParsing.Xml
