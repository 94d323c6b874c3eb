import PredictiveParsing.Grammar.Lines
import PredictiveParsing.Proofs.Rewriting.Usage
import PredictiveParsing.Proofs.Text.Words

/-
Printing productions and reading them as lines.

* `Sides.IsDisplayable` — sides that their displayed form tells;
* `IsDisplayable.cutAtArrow_text`, `IsDisplayable.words_behind` — what is found
  before and behind the arrow;
* `Line.IsRead`, `isRead_of_parse` — what a line that writes something is like;
* `IsRead.parse_text` — its productions are read back one by one;
* `antecedentsOf_ofSides`, `otherNamesOf_ofSides` — one line for each production
  writes the same vocabulary, in the same order;
* `ofLines_text` — the productions of a grammar from lines, printed, are lines
  of the same grammar.

Design notes:

* A line has one or more alternatives, and each becomes a line.  Its antecedent
  is then there more often, but at first at the same place.
* A production is printed with `→`, and its antecedent cannot hold one: the line
  it comes from was cut at the first, or has none.
-/
namespace PredictiveParsing

/-! ### Displayed productions -/

/-- The displayed form of the two sides of a production. -/
def Sides.text (s : Sides) : String :=
  s.antecedent ++ " " ++ arrow ++ " " ++ Text.join " " s.names

theorem Production.text_eq (p : Production) : p.text = p.sides.text := rfl

/-- Sides whose displayed form tells them: the antecedent is trimmed, not empty
and without an arrow, and the names are words. -/
structure Sides.IsDisplayable (s : Sides) : Prop where
  trim_eq : Text.trim s.antecedent = s.antecedent
  ne_empty : s.antecedent ≠ ""
  arrow_notMem : '→' ∉ s.antecedent.toList
  names_ne_nil : s.names ≠ []
  isWord : ∀ n ∈ s.names, Text.IsWord n

namespace Sides

theorem orEpsilon_ne_nil (ns : List String) : orEpsilon ns ≠ [] := by
  cases ns <;> simp [orEpsilon]

theorem orEpsilon_of_ne_nil {ns : List String} (h : ns ≠ []) : orEpsilon ns = ns := by
  obtain ⟨n, ns, rfl⟩ := List.exists_cons_of_ne_nil h
  rfl

theorem toList_text (s : Sides) : s.text.toList =
    s.antecedent.toList ++ ' ' :: '→' :: ' ' :: (Text.join " " s.names).toList := by
  simp [text, arrow]

variable {s : Sides}

theorem IsDisplayable.antecedent_ne_nil (h : s.IsDisplayable) : s.antecedent.toList ≠ [] :=
  fun he => h.ne_empty (String.toList_eq_nil_iff.1 he)

theorem IsDisplayable.trimChars_antecedent (h : s.IsDisplayable) :
    Text.trimChars s.antecedent.toList = s.antecedent.toList := by
  rw [← Text.toList_trim, h.trim_eq]

/-- A displayed production is cut at its own arrow. -/
theorem IsDisplayable.cutAtArrow_text (h : s.IsDisplayable) : cutAtArrow s.text.toList =
    some (s.antecedent.toList ++ [' '], ' ' :: (Text.join " " s.names).toList) := by
  have hnot : '→' ∉ s.antecedent.toList ++ [' '] := by simp [h.arrow_notMem]
  have hcut := Text.cutAt_of_notMem hnot [] (' ' :: (Text.join " " s.names).toList)
  have htext : s.text.toList = s.antecedent.toList ++ [' '] ++
      (['→'] ++ (' ' :: (Text.join " " s.names).toList)) := by
    simp [toList_text]
  have harrow : arrow.toList = ['→'] := rfl
  rw [cutAtArrow, harrow, htext, Text.contains, hcut]
  rfl

/-- What stands before the arrow is the antecedent and a space. -/
theorem IsDisplayable.trim_before (h : s.IsDisplayable) :
    Text.trim (.ofList (s.antecedent.toList ++ [' '])) = s.antecedent := by
  rw [Text.trim, String.toList_ofList, Text.trimChars_append_blank _ Text.isBlank_space,
    h.trimChars_antecedent, String.ofList_toList]

/-- What stands behind the arrow is a space and the names. -/
theorem IsDisplayable.words_behind (h : s.IsDisplayable) :
    Text.words (.ofList (' ' :: (Text.join " " s.names).toList)) = s.names := by
  rw [Text.words, String.toList_ofList, Text.wordChars_cons_blank Text.isBlank_space]
  exact Text.words_join h.isWord

/-- A displayed production has no blanks at its ends. -/
theorem IsDisplayable.trimChars_text (h : s.IsDisplayable) :
    Text.trimChars s.text.toList = s.text.toList := by
  apply Text.trimChars_eq_self
  · intro c hc
    rw [toList_text, List.head?_append_of_ne_nil _ h.antecedent_ne_nil,
      ← h.trimChars_antecedent] at hc
    exact Text.head?_trimChars _ c hc
  · obtain ⟨d, hd, hblank⟩ := Text.exists_getLast?_join h.names_ne_nil h.isWord
    intro c hc
    rw [toList_text, List.getLast?_append, List.getLast?_cons_cons, List.getLast?_cons_cons,
      List.getLast?_cons, hd] at hc
    obtain rfl : d = c := by simpa using hc
    exact hblank

end Sides

/-! ### Lines that are read -/

/-- A name that a line can write: a word without a bar that is no other
spelling of `ε`. -/
structure Line.IsName (n : String) : Prop where
  isWord : Text.IsWord n
  bar_notMem : '|' ∉ n.toList
  nameOfWord_eq : nameOfWord n = n

/-- What a line that writes something is like. -/
structure Line.IsRead (l : Line) : Prop where
  trim_eq : Text.trim l.antecedent = l.antecedent
  ne_empty : l.antecedent ≠ ""
  arrow_notMem : '→' ∉ l.antecedent.toList
  isSkipped_eq : Line.isSkipped l.antecedent.toList = false
  alternatives_ne_nil : l.alternatives ≠ []
  isName : ∀ a ∈ l.alternatives, ∀ n ∈ a, Line.IsName n

namespace Line

theorem isName_epsilonName : IsName epsilonName := by
  have hchars : epsilonName.toList = ['ε'] := rfl
  refine ⟨⟨by decide, ?_⟩, by decide, by decide⟩
  intro c hc
  rw [hchars] at hc
  obtain rfl := List.mem_singleton.1 hc
  decide

/-- A word of an alternative stands for a name that a line can write. -/
theorem isName_nameOfWord {w : String} (hw : Text.IsWord w) (hbar : '|' ∉ w.toList) :
    IsName (nameOfWord w) := by
  rw [nameOfWord]
  split
  · exact isName_epsilonName
  · next h => exact ⟨hw, hbar, by rw [nameOfWord, if_neg h]⟩

/-- Everything a line that writes something can be. -/
theorem parse_eq_ok_some_iff {line : String} {l : Line} :
    parse line = .ok (some l) ↔ isSkipped (Text.trimChars line.toList) = false ∧
      ∃ before behind, cutAtArrow (Text.trimChars line.toList) = some (before, behind) ∧
        Text.trim (.ofList before) ≠ "" ∧
        l = ⟨Text.trim (.ofList before), alternativesOf behind⟩ := by
  rw [parse]
  dsimp only
  cases hs : isSkipped (Text.trimChars line.toList) with
  | true => simp
  | false =>
    cases hc : cutAtArrow (Text.trimChars line.toList) with
    | none => simp
    | some parts =>
      obtain ⟨before, behind⟩ := parts
      rw [if_neg Bool.false_ne_true]
      dsimp only
      split
      · next ha => simp [ha]
      · next ha =>
        constructor
        · intro h
          cases h
          exact ⟨rfl, before, behind, rfl, ha, rfl⟩
        · rintro ⟨-, _, _, hparts, -, rfl⟩
          cases hparts
          rfl

theorem alternativesOf_ne_nil (behind : List Char) : alternativesOf behind ≠ [] := by
  rw [alternativesOf, Ne, List.map_eq_nil_iff]
  exact Text.pieces_ne_nil '|' behind

theorem isName_of_mem_alternativesOf {behind : List Char} {a : List String}
    (ha : a ∈ alternativesOf behind) {n : String} (hn : n ∈ a) : IsName n := by
  obtain ⟨part, hpart, rfl⟩ := List.mem_map.1 ha
  obtain ⟨w, hw, rfl⟩ := List.mem_map.1 hn
  obtain ⟨hword, hchars⟩ := Text.isWord_of_mem_words hw
  refine isName_nameOfWord hword fun hbar => ?_
  have hin := hchars _ hbar
  rw [String.toList_ofList] at hin
  exact Text.notMem_of_mem_pieces '|' behind part hpart hin

/-- A text is cut at the first arrow, which leaves none in front. -/
theorem cutAtArrow_eq_some {cs before behind : List Char}
    (h : cutAtArrow cs = some (before, behind)) : '→' ∉ before ∧ before <+: cs := by
  have harrow : arrow.toList = ['→'] := rfl
  rw [cutAtArrow, harrow] at h
  split at h
  · exact ⟨Text.notMem_of_cutAt h, Text.prefix_of_cutAt h⟩
  · next hnot =>
    have hpre := Text.prefix_of_cutAt h
    exact ⟨fun hm => hnot (Text.contains_eq_true_iff.2 (hpre.subset hm)), hpre⟩

/-- The front of a line decides whether it writes nothing. -/
theorem isSkipped_of_front {front cs : List Char} (hne : front ≠ []) (hpre : front <+: cs)
    (h : isSkipped front = true) : isSkipped cs = true := by
  simp only [isSkipped, Bool.or_eq_true, List.isEmpty_iff, List.isPrefixOf_iff_prefix] at h ⊢
  rcases h with (h | h) | h
  · exact absurd h hne
  · exact .inl (.inr (h.trans hpre))
  · exact .inr (h.trans hpre)

/-- **A line that writes something can be displayed**, production by production. -/
theorem isRead_of_parse {line : String} {l : Line} (h : parse line = .ok (some l)) : l.IsRead := by
  obtain ⟨hskip, before, behind, hcut, hne, rfl⟩ := parse_eq_ok_some_iff.1 h
  obtain ⟨harrow, hpre⟩ := cutAtArrow_eq_some hcut
  have hnil : Text.trimChars before ≠ [] := fun he => hne (by simp [Text.trim, he])
  -- The line is trimmed, so what stands before the arrow has no blanks in front.
  have hfront : before.dropWhile Text.isBlank = before := by
    cases before with
    | nil => rfl
    | cons c before =>
      obtain ⟨rest, hrest⟩ := hpre
      have hc := Text.head?_trimChars line.toList c (by rw [← hrest]; rfl)
      rw [List.dropWhile_cons_of_neg (by simp [hc])]
  have hantecedent : Text.trimChars before <+: before := by
    have := Text.trimChars_isPrefix before
    rwa [hfront] at this
  refine ⟨Text.trim_trim _, hne, ?_, ?_, alternativesOf_ne_nil behind, ?_⟩
  · rw [Text.toList_trim, String.toList_ofList]
    exact fun hm => harrow (hantecedent.subset hm)
  · rw [Text.toList_trim, String.toList_ofList, ← Bool.not_eq_true]
    intro hs
    rw [isSkipped_of_front hnil (hantecedent.trans hpre) hs] at hskip
    cases hskip
  · exact fun a ha n hn => isName_of_mem_alternativesOf ha hn

/-! ### Lines with one production -/

/-- The line that holds one production. -/
def ofSides (s : Sides) : Line :=
  ⟨s.antecedent, [s.names]⟩

variable {l : Line} {s : Sides}

theorem exists_of_mem_sides (hs : s ∈ l.sides) :
    ∃ a ∈ l.alternatives, s = ⟨l.antecedent, Sides.orEpsilon a⟩ := by
  obtain ⟨a, ha, rfl⟩ := List.mem_map.1 hs
  exact ⟨a, ha, rfl⟩

theorem IsRead.isName_of_mem_sides (h : l.IsRead) (hs : s ∈ l.sides) :
    ∀ n ∈ s.names, IsName n := by
  obtain ⟨a, ha, rfl⟩ := exists_of_mem_sides hs
  intro n hn
  by_cases he : n = epsilonName
  · exact he ▸ isName_epsilonName
  · exact h.isName a ha n ((Sides.mem_orEpsilon_iff he).1 hn)

theorem IsRead.isDisplayable (h : l.IsRead) (hs : s ∈ l.sides) : s.IsDisplayable := by
  have hword := fun n hn => (h.isName_of_mem_sides hs n hn).isWord
  obtain ⟨a, ha, rfl⟩ := exists_of_mem_sides hs
  exact ⟨h.trim_eq, h.ne_empty, h.arrow_notMem, Sides.orEpsilon_ne_nil a, hword⟩

/-- A displayed production begins as its antecedent does. -/
theorem isSkipped_append {cs : List Char} (hne : cs ≠ []) (rest : List Char) :
    isSkipped (cs ++ ' ' :: rest) = isSkipped cs := by
  obtain ⟨c, cs, rfl⟩ := List.exists_cons_of_ne_nil hne
  cases cs with
  -- A single slash is followed by the space, so it begins no comment.
  | nil => simp [isSkipped, List.isPrefixOf]
  | cons d cs => simp [isSkipped, List.isPrefixOf]

/-- The names behind the arrow are one alternative. -/
theorem alternativesOf_behind (hd : s.IsDisplayable) (hs : ∀ n ∈ s.names, IsName n) :
    alternativesOf (' ' :: (Text.join " " s.names).toList) = [s.names] := by
  -- Neither the names nor the spaces between them hold a bar.
  have hbar : '|' ∉ ' ' :: (Text.join " " s.names).toList := by
    intro hm
    rcases List.mem_cons.1 hm with he | hm
    · cases he
    · rcases Text.mem_join hm with he | ⟨n, hn, hc⟩
      · cases he
      · exact (hs n hn).bar_notMem hc
  have hnames : s.names.map nameOfWord = s.names :=
    (List.map_congr_left fun n hn => (hs n hn).nameOfWord_eq).trans (List.map_id _)
  rw [alternativesOf, Text.pieces_of_notMem hbar, List.map_singleton, hd.words_behind, hnames]

/-- **A displayed production is read back as the line that holds it.** -/
theorem IsRead.parse_text (h : l.IsRead) (hs : s ∈ l.sides) :
    parse s.text = .ok (some (ofSides s)) := by
  have hd := h.isDisplayable hs
  have hskip : isSkipped s.antecedent.toList = false := by
    obtain ⟨a, ha, rfl⟩ := exists_of_mem_sides hs
    exact h.isSkipped_eq
  have hcut := hd.cutAtArrow_text
  rw [← hd.trimChars_text] at hcut
  refine parse_eq_ok_some_iff.2 ⟨?_, _, _, hcut, ?_, ?_⟩
  · rw [hd.trimChars_text, Sides.toList_text, isSkipped_append hd.antecedent_ne_nil, hskip]
  · rw [hd.trim_before]
    exact hd.ne_empty
  · rw [hd.trim_before, alternativesOf_behind hd (h.isName_of_mem_sides hs)]
    rfl

end Line

/-! ### What lines have in common with their productions -/

/-- Repeats of the same do not count. -/
theorem eraseDups_eq_singleton {α : Type} [DecidableEq α] {as : List α} {b : α} (hne : as ≠ [])
    (h : ∀ a ∈ as, a = b) : as.eraseDups = [b] := by
  obtain ⟨a, as, rfl⟩ := List.exists_cons_of_ne_nil hne
  obtain ⟨rfl, has⟩ := List.forall_mem_cons.1 h
  have hnone : as.filter (fun c => !c == a) = [] :=
    List.filter_eq_nil_iff.2 fun c hc => by simp [has c hc]
  rw [List.eraseDups_cons, hnone]
  rfl

/-- What is left of repeats of the same behind other elements. -/
theorem eraseDups_removeAll {α : Type} [DecidableEq α] {as bs : List α} {b : α} (hne : as ≠ [])
    (h : ∀ a ∈ as, a = b) : (as.removeAll bs).eraseDups = if b ∈ bs then [] else [b] := by
  split
  · next hb =>
    have hnone : as.removeAll bs = [] :=
      List.filter_eq_nil_iff.2 fun a ha => by simp [h a ha, hb]
    rw [hnone]
    rfl
  · next hb =>
    have hall : as.removeAll bs = as :=
      List.filter_eq_self.2 fun a ha => by simp [h a ha, hb]
    rw [hall, eraseDups_eq_singleton hne h]

/-- Without repeats, it does not matter how often each element is there. -/
theorem eraseDups_flatMap {α β : Type} [DecidableEq β] {as : List α} {f : α → List β} {b : α → β}
    (h : ∀ a ∈ as, f a ≠ [] ∧ ∀ c ∈ f a, c = b a) :
    (as.flatMap f).eraseDups = (as.map b).eraseDups := by
  induction as using List.reverseRecOn with
  | nil => rfl
  | append_singleton as a ih =>
    obtain ⟨has, ha⟩ := List.forall_mem_append.1 h
    obtain ⟨hne, hall⟩ := ha a (List.mem_singleton_self a)
    -- The earlier elements are the same on both sides, and so the same are new.
    have hmem : b a ∈ as.flatMap f ↔ b a ∈ as.map b := by
      rw [← List.mem_eraseDups, ih has, List.mem_eraseDups]
    have hone : ∀ c ∈ [b a], c = b a := fun c hc => List.mem_singleton.1 hc
    rw [List.flatMap_append, List.flatMap_singleton, List.map_append, List.map_singleton,
      List.eraseDups_append, List.eraseDups_append, ih has, eraseDups_removeAll hne hall,
      eraseDups_removeAll (List.cons_ne_nil _ _) hone, if_congr hmem rfl rfl]

namespace Grammar

variable {lines : List Line}

theorem antecedentsOf_ofSides (h : ∀ l ∈ lines, l.IsRead) :
    antecedentsOf ((lines.flatMap Line.sides).map Line.ofSides) = antecedentsOf lines := by
  rw [antecedentsOf, antecedentsOf, List.map_map, List.map_flatMap]
  refine eraseDups_flatMap fun l hl => ?_
  simp [Line.sides, (h l hl).alternatives_ne_nil, Line.ofSides]

/-- An empty alternative is written as `ε`, which is no terminal. -/
theorem otherNamesOf_ofSides (h : ∀ l ∈ lines, l.IsRead) :
    otherNamesOf ((lines.flatMap Line.sides).map Line.ofSides) = otherNamesOf lines := by
  have hnames : ((lines.flatMap Line.sides).map Line.ofSides).flatMap Line.names =
      lines.flatMap fun l => l.alternatives.flatMap Sides.orEpsilon := by
    simp [List.flatMap_map, List.flatMap_assoc, Line.sides, Line.names, Line.ofSides]
  -- What stands for no names at all is filtered out again.
  have hfilter : ∀ (P : String → Prop) [DecidablePred P] (a : List String),
      (Sides.orEpsilon a).filter (fun n => n ≠ epsilonName ∧ P n) =
        a.filter fun n => n ≠ epsilonName ∧ P n := by
    intro P _ a
    cases a with
    | nil => simp [Sides.orEpsilon]
    | cons n a => rfl
  rw [otherNamesOf, otherNamesOf, antecedentsOf_ofSides h, hnames]
  congr 1
  simp only [List.filter_flatMap, hfilter]
  refine List.flatMap_congr fun l _ => ?_
  rw [Line.names, List.filter_flatten]
  rfl

/-- Every production of a line has a name behind the arrow. -/
theorem names_ne_nil_of_mem_sides {s : Sides} (hs : s ∈ lines.flatMap Line.sides) :
    s.names ≠ [] := by
  obtain ⟨l, -, hs⟩ := List.mem_flatMap.1 hs
  obtain ⟨a, -, rfl⟩ := Line.exists_of_mem_sides hs
  exact Sides.orEpsilon_ne_nil a

theorem flatMap_sides_ofSides (lines : List Line) :
    ((lines.flatMap Line.sides).map Line.ofSides).flatMap Line.sides = lines.flatMap Line.sides := by
  have hself : ∀ s ∈ lines.flatMap Line.sides, (Line.ofSides s).sides = [s] := by
    intro s hs
    simp [Line.ofSides, Line.sides, Sides.orEpsilon_of_ne_nil (names_ne_nil_of_mem_sides hs)]
  rw [List.flatMap_map, List.flatMap_congr hself, List.flatMap_singleton']

/-! ### The grammar that lines write -/

theorem mem_filterMap_of_mapM {texts : List String} {read : List (Option Line)}
    (h : texts.mapM Line.parse = .ok read) {l : Line} :
    l ∈ read.filterMap id ↔ ∃ text ∈ texts, Line.parse text = .ok (some l) := by
  induction texts generalizing read with
  | nil =>
    cases h
    simp
  | cons text texts ih =>
    rw [List.mapM_cons] at h
    cases hp : Line.parse text with
    | error fault => simp [hp, bind, Except.bind] at h
    | ok r =>
      cases hr : texts.mapM Line.parse with
      | error fault => simp [hp, hr, bind, Except.bind] at h
      | ok rs =>
        obtain rfl : r :: rs = read := by
          simpa [hp, hr, bind, Except.bind, pure, Except.pure] using h
        rw [List.exists_mem_cons_iff, ← ih hr, hp]
        cases r <;> simp [eq_comm]

/-- Lines that are read write the grammar with their antecedents, their other
names and their productions. -/
theorem ofLines_cases {start name description : String} {texts : List String} {g : Grammar}
    (h : ofLines start texts name description = .ok g) : ∃ lines : List Line,
      (∀ l, l ∈ lines ↔ ∃ text ∈ texts, Line.parse text = .ok (some l)) ∧
      build name description (antecedentsOf lines) (otherNamesOf lines)
        ((lines.flatMap Line.sides).map .sides) (some start) = .ok g := by
  rw [ofLines] at h
  cases hr : texts.mapM Line.parse with
  | error fault => simp [hr, bind, Except.bind] at h
  | ok read =>
    rw [hr] at h
    exact ⟨read.filterMap id, fun l => mem_filterMap_of_mapM hr, h⟩

theorem forall_isRead {texts : List String} {lines : List Line}
    (h : ∀ l, l ∈ lines ↔ ∃ text ∈ texts, Line.parse text = .ok (some l)) :
    ∀ l ∈ lines, l.IsRead := by
  intro l hl
  obtain ⟨text, -, hparse⟩ := (h l).1 hl
  exact Line.isRead_of_parse hparse

/-- Displayed productions that are read back write the grammar with them. -/
theorem ofLines_texts {sides : List Sides}
    (h : ∀ s ∈ sides, Line.parse s.text = .ok (some (Line.ofSides s)))
    (start name description : String) : ofLines start (sides.map Sides.text) name description =
      build name description (antecedentsOf (sides.map Line.ofSides))
        (otherNamesOf (sides.map Line.ofSides))
        (((sides.map Line.ofSides).flatMap Line.sides).map .sides) (some start) := by
  have hread : (sides.map Sides.text).mapM Line.parse =
      .ok (sides.map (some ∘ Line.ofSides)) := by
    induction sides with
    | nil => rfl
    | cons s sides ih =>
      obtain ⟨hs, hsides⟩ := List.forall_mem_cons.1 h
      rw [List.map_cons, List.mapM_cons, hs, ih hsides]
      rfl
  have hlines : (sides.map (some ∘ Line.ofSides)).filterMap id = sides.map Line.ofSides := by
    simp [List.filterMap_map]
  rw [ofLines, hread]
  show build _ _ (antecedentsOf ((sides.map (some ∘ Line.ofSides)).filterMap id)) _ _ _ = _
  rw [hlines]

/-- What a grammar has that is built from names and sides. -/
theorem build_sides_cases {name description : String} {nonTerminals terminals : List String}
    {sides : List Sides} {start : Option String} {g : Grammar}
    (h : build name description nonTerminals terminals (sides.map .sides) start = .ok g) :
    declared nonTerminals = .ok g.nonTerminals ∧ declared terminals = .ok g.terminals ∧
      g.productions = sides.map g.tag := by
  obtain ⟨g₁, g₂, hv, hp, rfl⟩ := build_cases h
  rcases setVocabulary_cases nonTerminals terminals { name, description } with
    ⟨_, he⟩ | ⟨_, _, -, he⟩ | ⟨names, others, hn, ht, he⟩
  · rw [hv] at he
    cases he
  · rw [hv] at he
    cases he
  · rw [hv] at he
    cases he
    simp only [setProductions, mapM_read_sides] at hp
    cases hp
    exact ⟨hn, ht, rfl⟩

/-- A production has the sides that it is tagged from. -/
theorem sides_tag (g : Grammar) {s : Sides} (hs : s.names ≠ []) : (g.tag s).sides = s := by
  rw [Production.sides, names_tag, Sides.orEpsilon_of_ne_nil hs, tag,
    Production.antecedent_ofSymbols]

/-- **Printing the productions of lines and reading them gives the same grammar
back**, whatever arrows, bars, comments and spellings of `ε` the lines have. -/
theorem ofLines_text {start name description : String} {texts : List String} {g : Grammar}
    (h : ofLines start texts name description = .ok g) :
    ofLines start (g.productions.map Production.text) name description = .ok g := by
  obtain ⟨lines, hlines, hbuild⟩ := ofLines_cases h
  have hread := forall_isRead hlines
  have hparse : ∀ s ∈ lines.flatMap Line.sides,
      Line.parse s.text = .ok (some (Line.ofSides s)) := by
    intro s hs
    obtain ⟨l, hl, hs⟩ := List.mem_flatMap.1 hs
    exact (hread l hl).parse_text hs
  have htexts : g.productions.map Production.text = (lines.flatMap Line.sides).map Sides.text := by
    rw [(build_sides_cases hbuild).2.2, List.map_map]
    refine List.map_congr_left fun s hs => ?_
    rw [Function.comp_apply, Production.text_eq, sides_tag g (names_ne_nil_of_mem_sides hs)]
  rw [htexts, ofLines_texts hparse, antecedentsOf_ofSides hread, otherNamesOf_ofSides hread,
    flatMap_sides_ofSides]
  exact hbuild

/-- Both arrows, a bar in an antecedent, an arrow and a comment sign in names, an
empty alternative and three spellings of `ε`. -/
theorem ofLines_text_mixed :
    let lines := ["# a comment", "S -> A#1 x | ", "  A#1 → EPS | -> y", "", "A|B -> Ε S | Epsilon"]
    let g : Grammar :=
      { name := "G", nonTerminals := ["S", "A#1", "A|B"], terminals := ["x", "->", "y"]
        start := some "S"
        productions := [⟨"S", .nonTerminal "A#1", [.terminal "x"]⟩, ⟨"S", .epsilon, []⟩,
          ⟨"A#1", .epsilon, []⟩, ⟨"A#1", .terminal "->", [.terminal "y"]⟩,
          ⟨"A|B", .epsilon, [.nonTerminal "S"]⟩, ⟨"A|B", .epsilon, []⟩] }
    let printed := ["S → A#1 x", "S → ε", "A#1 → ε", "A#1 → -> y", "A|B → ε S", "A|B → ε"]
    ofLines "S" lines "G" "" = .ok g ∧ g.productions.map Production.text = printed ∧
      ofLines "S" printed "G" "" = .ok g := by
  intro lines g printed
  have hlines : ofLines "S" lines "G" "" = .ok g := by decide +kernel
  have hprinted : g.productions.map Production.text = printed := by decide +kernel
  have hback := ofLines_text hlines
  rw [hprinted] at hback
  exact ⟨hlines, hprinted, hback⟩

end Grammar

end PredictiveParsing
