import Mathlib.Data.List.TakeWhile
import PredictiveParsing.Xml.Token
import PredictiveParsing.Xml.Writing

/-
Markup is read as it was written.

* `Reader.all?_of_next_some`, `Reader.all?_of_next_none`,
  `Reader.all?_of_next_fails` — reading one thing more, or no more, or failing;
* `IsWritableChar` — the characters that can be written;
* `IsPlainName` — the names that a tag can be written with;
* `Reference.read?_of_mem_predefined` — what stands for a character is read as
  that character;
* `IsPlainAttribute`, `Attribute.all?_flatMap` — the attributes of a tag;
* `Token.read?_opening`, `Token.read?_lone`, `Token.read?_closing`,
  `Token.read?_data`, `Token.read?_reference` — the tokens of what is written.

Design notes:

* Names without a colon are all that is written here, so every name is read
  without a prefix.
* A carriage return is an allowed character, but it is read as a line feed.
-/
namespace PredictiveParsing.Xml

/-! ### Readers -/

section

variable {σ α : Type} {r : Reader σ α} {cs rest : List σ}

theorem Reader.all?_of_next_none (h : r.next cs = some (none, rest)) :
    r.all? cs = some ([], rest) := by
  rw [Reader.all?]
  split
  · next h' => simp [h] at h'
  · next h' =>
    obtain ⟨-, rfl⟩ := Prod.mk.inj (Option.some.inj (h.symm.trans h'))
    rfl
  · next h' => simp [h] at h'

theorem Reader.all?_of_next_fails (h : r.next cs = none) : r.all? cs = none := by
  rw [Reader.all?]
  split
  · rfl
  · next h' => simp [h] at h'
  · next h' => simp [h] at h'

theorem Reader.all?_of_next_some {a : α} (h : r.next cs = some (some a, rest)) :
    r.all? cs = (r.all? rest).map fun taken => (a :: taken.1, taken.2) := by
  rw [Reader.all?]
  split
  · next h' => simp [h] at h'
  · next h' => simp [h] at h'
  · next h' =>
    obtain ⟨ha, rfl⟩ := Prod.mk.inj (Option.some.inj (h.symm.trans h'))
    obtain rfl := Option.some.inj ha
    rfl

end

/-! ### Characters -/

/-- A character that a text may hold, other than a carriage return. -/
def IsWritableChar (c : Char) : Prop :=
  isXmlChar c = true ∧ c ≠ '\r'

instance (c : Char) : Decidable (IsWritableChar c) :=
  inferInstanceAs (Decidable (_ ∧ _))

/-- Only the characters at hand are looked at, not all there are. -/
instance (cs : List Char) : Decidable (∀ c ∈ cs, IsWritableChar c) :=
  List.decidableBAll _ _

/-- Every character of a name can be written. -/
theorem isWritableChar_of_isNameChar {c : Char} (h : isNameChar .utf8 c = true) :
    IsWritableChar c := by
  have hranges : ∀ r ∈ nameStartRanges ++ nameExtraRanges, 0x20 ≤ r.1 ∧ r.2 < 0xFFFE := by
    decide +kernel
  obtain ⟨r, hr, hfrom, hto⟩ : ∃ r ∈ nameStartRanges ++ nameExtraRanges,
      r.1 ≤ c.toNat ∧ c.toNat ≤ r.2 := by
    simpa [isNameChar, isNameStart, isInRanges, or_and_right, exists_or] using h
  obtain ⟨hlow, hhigh⟩ := hranges r hr
  have hblank : ' ' ≤ c := by
    show (' ').toNat ≤ c.toNat
    exact hlow.trans hfrom
  constructor
  · have : c.toNat ≠ 0xFFFE ∧ c.toNat ≠ 0xFFFF := by omega
    simp [isXmlChar, hblank, this]
  · rintro rfl
    exact absurd hblank (by decide)

/-! ### Names -/

/-- A name without a colon, and nothing else. -/
def IsPlainName (name : String) : Prop :=
  name? .utf8 name.toList = some (name.toList, [])

instance (name : String) : Decidable (IsPlainName name) :=
  inferInstanceAs (Decidable (_ = _))

/-- The name ends where the text goes on. -/
def EndsName (rest : List Char) : Prop :=
  ∀ c ∈ rest.head?, isNameChar .utf8 c = false ∧ c ≠ ':'

theorem endsName_cons {c : Char} (hc : isNameChar .utf8 c = false) (hne : c ≠ ':')
    (rest : List Char) : EndsName (c :: rest) := by
  intro d hd
  obtain rfl := Option.some.inj hd
  exact ⟨hc, hne⟩

theorem isNameStart_ne {c d : Char} (hc : isNameStart .utf8 c = true)
    (hd : isNameStart .utf8 d = false) : c ≠ d := by
  rintro rfl
  rw [hc] at hd
  cases hd

theorem IsPlainName.exists_cons {name : String} (h : IsPlainName name) :
    ∃ c cs, name.toList = c :: cs ∧ isNameStart .utf8 c = true ∧
      ∀ d ∈ cs, isNameChar .utf8 d = true := by
  rw [IsPlainName] at h
  cases hn : name.toList with
  | nil => simp [hn, name?] at h
  | cons c cs =>
    rw [hn, name?] at h
    split at h
    · next hc =>
      obtain ⟨htake, -⟩ := Prod.mk.inj (Option.some.inj h)
      obtain ⟨-, htake⟩ := List.cons.inj htake
      exact ⟨c, cs, rfl, hc, fun d hd => List.mem_takeWhile_imp (htake ▸ hd)⟩
    · cases h

theorem IsPlainName.isWritableChar {name : String} (h : IsPlainName name) :
    ∀ c ∈ name.toList, IsWritableChar c := by
  obtain ⟨c, cs, hname, hc, hcs⟩ := h.exists_cons
  rw [hname]
  refine List.forall_mem_cons.2 ⟨isWritableChar_of_isNameChar ?_, fun d hd => ?_⟩
  · rw [isNameChar, hc, Bool.true_or]
  · exact isWritableChar_of_isNameChar (hcs d hd)

theorem IsPlainName.name?_append {name : String} (h : IsPlainName name) {rest : List Char}
    (hrest : EndsName rest) : name? .utf8 (name.toList ++ rest) = some (name.toList, rest) := by
  obtain ⟨c, cs, hname, hc, hcs⟩ := h.exists_cons
  have hstop : rest.takeWhile (isNameChar .utf8) = [] ∧
      rest.dropWhile (isNameChar .utf8) = rest := by
    cases rest with
    | nil => exact ⟨rfl, rfl⟩
    | cons d rest => simp [(hrest d rfl).1]
  rw [hname, List.cons_append, name?, if_pos hc, List.takeWhile_append_of_pos hcs,
    List.dropWhile_append_of_pos hcs, hstop.1, hstop.2, List.append_nil]

theorem IsPlainName.read?_append {name : String} (h : IsPlainName name) {rest : List Char}
    (hrest : EndsName rest) :
    QualifiedName.read? .utf8 (name.toList ++ rest) = some (⟨none, name⟩, rest) := by
  rw [QualifiedName.read?, h.name?_append hrest]
  cases rest with
  | nil => simp
  | cons c rest =>
    have hc := (hrest c rfl).2
    simp [hc]

/-! ### References -/

/-- What stands for a character is read as that character. -/
theorem Reference.read?_of_mem_predefined {name : String} {c : Char}
    (h : (name, c) ∈ predefined) (rest : List Char) :
    Reference.read? .utf8 (name.toList ++ ';' :: rest) = some (.entity name, rest) ∧
      (Reference.entity name).resolved = .char c := by
  have hparts : (';' ∉ name.toList ∧ ofBody? .utf8 name.toList = some (.entity name)) ∧
      (Reference.entity name).resolved = .char c := by
    simp only [predefined, List.mem_cons, Prod.mk.injEq, List.not_mem_nil, or_false] at h
    rcases h with ⟨rfl, rfl⟩ | ⟨rfl, rfl⟩ | ⟨rfl, rfl⟩ | ⟨rfl, rfl⟩ | ⟨rfl, rfl⟩ <;>
      exact ⟨⟨by decide, by decide⟩, by decide⟩
  obtain ⟨⟨hbody, hof⟩, hresolved⟩ := hparts
  have hcut := Text.cutAt_of_notMem hbody [] rest
  refine ⟨?_, hresolved⟩
  rw [Reference.read?, show name.toList ++ ';' :: rest = name.toList ++ ([';'] ++ rest) from rfl,
    hcut]
  simp [hof]

/-- A character is written as it is between tags, or as a reference. -/
theorem escapedChar_cases (c : Char) :
    (escapedChar c = [c] ∧ c ≠ '&' ∧ c ≠ '<' ∧ c ≠ '>') ∨
      ∃ name, (name, c) ∈ Reference.predefined ∧
        escapedChar c = '&' :: (name.toList ++ [';']) := by
  rw [escapedChar]
  split
  · next h => exact .inr ⟨"amp", by simp [h, Reference.predefined], by simp⟩
  · next hamp =>
    split
    · next h => exact .inr ⟨"lt", by simp [h, Reference.predefined], by simp⟩
    · next hlt =>
      split
      · next h => exact .inr ⟨"gt", by simp [h, Reference.predefined], by simp⟩
      · next hgt => exact .inl ⟨rfl, hamp, hlt, hgt⟩

/-- The same between quotes. -/
theorem escapedInQuotes_cases (c : Char) :
    (escapedInQuotes c = [c] ∧ c ≠ '&' ∧ c ≠ '<' ∧ c ≠ '"') ∨
      ∃ name, (name, c) ∈ Reference.predefined ∧
        escapedInQuotes c = '&' :: (name.toList ++ [';']) := by
  rw [escapedInQuotes]
  split
  · next h => exact .inr ⟨"quot", by simp [h, Reference.predefined], by simp⟩
  · next hquote =>
    rcases escapedChar_cases c with ⟨he, hamp, hlt, -⟩ | h
    · exact .inl ⟨he, hamp, hlt, hquote⟩
    · exact .inr h

theorem isWritableChar_reference {name : String} {c : Char}
    (h : (name, c) ∈ Reference.predefined) :
    ∀ d ∈ '&' :: (name.toList ++ [';']), IsWritableChar d := by
  have hall : ∀ p ∈ Reference.predefined, ∀ d ∈ '&' :: (p.1.toList ++ [';']), IsWritableChar d := by
    decide
  exact hall _ h

theorem isWritableChar_escapedChar {c : Char} (hc : IsWritableChar c) :
    ∀ d ∈ escapedChar c, IsWritableChar d := by
  rcases escapedChar_cases c with ⟨he, -⟩ | ⟨name, hname, he⟩
  · rw [he]
    exact List.forall_mem_singleton.2 hc
  · rw [he]
    exact isWritableChar_reference hname

theorem isWritableChar_escapedInQuotes {c : Char} (hc : IsWritableChar c) :
    ∀ d ∈ escapedInQuotes c, IsWritableChar d := by
  rcases escapedInQuotes_cases c with ⟨he, -⟩ | ⟨name, hname, he⟩
  · rw [he]
    exact List.forall_mem_singleton.2 hc
  · rw [he]
    exact isWritableChar_reference hname

/-! ### Attributes -/

/-- An attribute that can be written and is no declaration of a namespace; no
space in its value is anything but a blank. -/
structure IsPlainAttribute (a : String × String) : Prop where
  name : IsPlainName a.1
  ne_xmlns : a.1 ≠ "xmlns"
  isWritableChar : ∀ c ∈ a.2.toList, IsWritableChar c
  eq_blank : ∀ c ∈ a.2.toList, isSpace c = true → c = ' '

namespace Attribute

/-- An attribute as it is read after it was written. -/
def ofWritten (a : String × String) : Attribute :=
  ⟨⟨none, a.1⟩, a.2.toList.map .char⟩

theorem notMem_escapedInQuotes (c : Char) : '"' ∉ escapedInQuotes c := by
  rcases escapedInQuotes_cases c with ⟨he, -, -, hquote⟩ | ⟨name, hname, he⟩
  · rw [he]
    simpa using Ne.symm hquote
  · rw [he]
    simp only [Reference.predefined, List.mem_cons, Prod.mk.injEq, List.not_mem_nil,
      or_false] at hname
    rcases hname with ⟨rfl, -⟩ | ⟨rfl, -⟩ | ⟨rfl, -⟩ | ⟨rfl, -⟩ | ⟨rfl, -⟩ <;> simp

theorem nextPiece_escapedInQuotes {c : Char} (hc : isSpace c = true → c = ' ') (rest : List Char) :
    nextPiece .utf8 (escapedInQuotes c ++ rest) = some (some (.char c), rest) := by
  rcases escapedInQuotes_cases c with ⟨he, hamp, hlt, -⟩ | ⟨name, hname, he⟩
  · have hnext : nextPiece .utf8 (c :: rest) =
        some (some (.char (if isSpace c then ' ' else c)), rest) := by
      unfold nextPiece
      split
      · next he => cases he
      · next he => exact absurd (List.cons.inj he).1 hlt
      · next he => exact absurd (List.cons.inj he).1 hamp
      · next he =>
        obtain ⟨rfl, rfl⟩ := List.cons.inj he
        rfl
    rw [he, List.singleton_append, hnext]
    by_cases hs : isSpace c = true
    · rw [if_pos hs, hc hs]
    · rw [if_neg hs]
  · obtain ⟨hread, hresolved⟩ := Reference.read?_of_mem_predefined hname rest
    rw [he, List.cons_append, List.append_assoc, List.singleton_append, nextPiece, hread]
    simp [hresolved]

/-- A value is read as it was written. -/
theorem pieces?_flatMap {cs : List Char} (hcs : ∀ c ∈ cs, isSpace c = true → c = ' ') :
    pieces? .utf8 (cs.flatMap escapedInQuotes) = some (cs.map .char) := by
  have hall : (pieceReader .utf8).all? (cs.flatMap escapedInQuotes) = some (cs.map .char, []) := by
    induction cs with
    | nil => exact Reader.all?_of_next_none rfl
    | cons c cs ih =>
      obtain ⟨hc, hcs⟩ := List.forall_mem_cons.1 hcs
      rw [List.flatMap_cons, Reader.all?_of_next_some (nextPiece_escapedInQuotes hc _), ih hcs]
      rfl
  rw [pieces?, hall]
  rfl

theorem readValue?_append (cs rest : List Char) :
    readValue? ('=' :: '"' :: (cs.flatMap escapedInQuotes ++ '"' :: rest)) =
      some (cs.flatMap escapedInQuotes, rest) := by
  have hquote : '"' ∉ cs.flatMap escapedInQuotes := by
    intro h
    obtain ⟨c, -, hc⟩ := List.mem_flatMap.1 h
    exact notMem_escapedInQuotes c hc
  have hcut := Text.cutAt_of_notMem hquote [] rest
  have hfront : after? ['='] (skipSpace ('=' :: '"' ::
      (cs.flatMap escapedInQuotes ++ '"' :: rest))) =
        some ('"' :: (cs.flatMap escapedInQuotes ++ '"' :: rest)) := rfl
  rw [readValue?, hfront]
  exact hcut

/-- Where a name begins, there is neither a space nor the end of a tag. -/
theorem skipSpace_cons {c : Char} (hc : isNameStart .utf8 c = true) (cs : List Char) :
    skipSpace (' ' :: c :: cs) = c :: cs := by
  have hspace : isSpace c = false := by
    simp only [isSpace, Bool.or_eq_false_iff, decide_eq_false_iff_not]
    exact ⟨⟨⟨isNameStart_ne hc (by decide), isNameStart_ne hc (by decide)⟩,
      isNameStart_ne hc (by decide)⟩, isNameStart_ne hc (by decide)⟩
  rw [skipSpace, List.dropWhile_cons_of_pos rfl, List.dropWhile_cons_of_neg (by simp [hspace])]

/-- An attribute is read as it was written. -/
theorem next_writtenAttribute {a : String × String} (h : IsPlainAttribute a) (rest : List Char) :
    next .utf8 (writtenAttribute a ++ rest) = some (some (ofWritten a), rest) := by
  obtain ⟨c, cs, hname, hc, -⟩ := h.name.exists_cons
  have hwritten : writtenAttribute a ++ rest = ' ' :: (a.1.toList ++ '=' :: '"' ::
      (a.2.toList.flatMap escapedInQuotes ++ '"' :: rest)) := by
    simp [writtenAttribute]
  have hskip : skipSpace (writtenAttribute a ++ rest) = a.1.toList ++ '=' :: '"' ::
      (a.2.toList.flatMap escapedInQuotes ++ '"' :: rest) := by
    rw [hwritten, hname, List.cons_append, skipSpace_cons hc]
  have hends : EndsName ('=' :: '"' :: (a.2.toList.flatMap escapedInQuotes ++ '"' :: rest)) :=
    endsName_cons (by decide) (by decide) _
  have hread := h.name.read?_append hends
  rw [next, hskip, hname, List.cons_append]
  split
  · next he => exact absurd (List.cons.inj he).1 (isNameStart_ne hc (by decide))
  · next he => exact absurd (List.cons.inj he).1 (isNameStart_ne hc (by decide))
  · rw [← List.cons_append, ← hname, hwritten, if_neg (by simp [isSpace]), hread]
    simp only [readValue?_append, pieces?_flatMap h.eq_blank]
    rfl

/-- The attributes of a tag are read as they were written. -/
theorem all?_flatMap {as : List (String × String)} (h : ∀ a ∈ as, IsPlainAttribute a)
    {rest left : List Char} (hrest : next .utf8 rest = some (none, left)) :
    (reader .utf8).all? (as.flatMap writtenAttribute ++ rest) = some (as.map ofWritten, left) := by
  induction as with
  | nil => exact Reader.all?_of_next_none hrest
  | cons a as ih =>
    obtain ⟨ha, has⟩ := List.forall_mem_cons.1 h
    rw [List.flatMap_cons, List.append_assoc,
      Reader.all?_of_next_some (next_writtenAttribute ha _), ih has]
    rfl

theorem endsName_flatMap (as : List (String × String)) {rest : List Char}
    (hrest : EndsName rest) : EndsName (as.flatMap writtenAttribute ++ rest) := by
  cases as with
  | nil => exact hrest
  | cons a as => exact endsName_cons (by decide) (by decide) _

end Attribute

/-! ### Tags -/

/-- A tag as it is read after it was written. -/
def Tag.ofWritten (tag : String) (attributes : List (String × String)) : Tag :=
  ⟨⟨none, tag⟩, attributes.map Attribute.ofWritten⟩

section

variable {tag : String} {as : List (String × String)} (ht : IsPlainName tag)

include ht

theorem isWritableChar_writtenTag (has : ∀ a ∈ as, IsPlainAttribute a) :
    ∀ c ∈ writtenTag tag as, IsWritableChar c := by
  refine List.forall_mem_append.2 ⟨ht.isWritableChar, fun c hc => ?_⟩
  obtain ⟨a, ha, hc⟩ := List.mem_flatMap.1 hc
  have hname := (has a ha).name.isWritableChar
  have hvalue : ∀ d ∈ a.2.toList.flatMap escapedInQuotes, IsWritableChar d := by
    intro d hd
    obtain ⟨e, he, hd⟩ := List.mem_flatMap.1 hd
    exact isWritableChar_escapedInQuotes ((has a ha).isWritableChar e he) d hd
  have hmarks : IsWritableChar ' ' ∧ IsWritableChar '=' ∧ IsWritableChar '"' := by decide
  have hwritten : ∀ d ∈ writtenAttribute a, IsWritableChar d := by
    simpa only [writtenAttribute, List.forall_mem_append, List.forall_mem_cons] using
      ⟨⟨⟨hmarks.1, hname⟩, hmarks.2.1, hmarks.2.2, hvalue⟩, hmarks.2.2, List.forall_mem_nil _⟩
  exact hwritten c hc

theorem isWritableChar_writtenEnd : ∀ c ∈ writtenEnd tag, IsWritableChar c := by
  have hmarks : IsWritableChar '<' ∧ IsWritableChar '/' ∧ IsWritableChar '>' := by decide
  simpa only [writtenEnd, List.forall_mem_append, List.forall_mem_cons] using
    ⟨⟨hmarks.1, hmarks.2.1, ht.isWritableChar⟩, hmarks.2.2, List.forall_mem_nil _⟩

end

namespace Token

section

variable {tag : String} {as : List (String × String)} (ht : IsPlainName tag)

include ht

/-- A tag is told from other markup by its name. -/
theorem read?_tag (cs : List Char) :
    read? .utf8 ('<' :: (tag.toList ++ cs)) = readTag? .utf8 (tag.toList ++ cs) := by
  obtain ⟨c, name, hname, hc, -⟩ := ht.exists_cons
  rw [hname, List.cons_append]
  unfold read?
  split
  · next he =>
    exact absurd (List.cons.inj (List.cons.inj he).2).1 (isNameStart_ne hc (by decide))
  · next he =>
    exact absurd (List.cons.inj (List.cons.inj he).2).1 (isNameStart_ne hc (by decide))
  · next he =>
    exact absurd (List.cons.inj (List.cons.inj he).2).1 (isNameStart_ne hc (by decide))
  · next he => rw [(List.cons.inj he).2]
  · next he => cases he
  · next hne _ => exact absurd rfl (hne _)

theorem read?_opening (has : ∀ a ∈ as, IsPlainAttribute a) (rest : List Char) :
    read? .utf8 ('<' :: (writtenTag tag as ++ '>' :: rest)) =
      some (opening (.ofWritten tag as), rest) := by
  have hname := ht.read?_append (Attribute.endsName_flatMap as
    (endsName_cons (c := '>') (by decide) (by decide) rest))
  have hstop : Attribute.next .utf8 ('>' :: rest) = some (none, '>' :: rest) := rfl
  rw [writtenTag, List.append_assoc, read?_tag ht, readTag?, hname]
  simp only [Attribute.all?_flatMap has hstop]
  rfl

theorem read?_lone (has : ∀ a ∈ as, IsPlainAttribute a) (rest : List Char) :
    read? .utf8 ('<' :: (writtenTag tag as ++ ' ' :: '/' :: '>' :: rest)) =
      some (lone (.ofWritten tag as), rest) := by
  have hname := ht.read?_append (Attribute.endsName_flatMap as
    (endsName_cons (c := ' ') (by decide) (by decide) ('/' :: '>' :: rest)))
  have hstop : Attribute.next .utf8 (' ' :: '/' :: '>' :: rest) = some (none, '/' :: '>' :: rest) :=
    rfl
  rw [writtenTag, List.append_assoc, read?_tag ht, readTag?, hname]
  simp only [Attribute.all?_flatMap has hstop]
  rfl

theorem read?_closing (rest : List Char) :
    read? .utf8 (writtenEnd tag ++ rest) = some (closing ⟨none, tag⟩, rest) := by
  have hname := ht.read?_append (endsName_cons (c := '>') (by decide) (by decide) rest)
  rw [show writtenEnd tag ++ rest = '<' :: '/' :: (tag.toList ++ '>' :: rest) by simp [writtenEnd],
    read?, readClosing?, hname]
  rfl

end

/-! ### Character data -/

/-- A character that stands for itself and ends nothing. -/
def IsPlainData (c : Char) : Prop :=
  c ≠ '&' ∧ c ≠ '<' ∧ c ≠ '>'

theorem read?_of_isData {c : Char} (hc : isData c = true) (cs : List Char) :
    read? .utf8 (c :: cs) = readData? (c :: cs) := by
  have hne : c ≠ '<' ∧ c ≠ '&' := by simpa [isData] using hc
  unfold read?
  split
  · next he => exact absurd (List.cons.inj he).1 hne.1
  · next he => exact absurd (List.cons.inj he).1 hne.1
  · next he => exact absurd (List.cons.inj he).1 hne.1
  · next he => exact absurd (List.cons.inj he).1 hne.1
  · next he => exact absurd (List.cons.inj he).1 hne.2
  · rfl

/-- Character data goes as far as the next tag or reference. -/
theorem read?_data {cs rest : List Char} (hne : cs ≠ []) (hcs : ∀ c ∈ cs, IsPlainData c)
    (hrest : ∀ c ∈ rest.head?, isData c = false) :
    read? .utf8 (cs ++ rest) = some (data cs, rest) := by
  have hdata : ∀ c ∈ cs, isData c = true := by
    intro c hc
    obtain ⟨hamp, hlt, -⟩ := hcs c hc
    simp [isData, hamp, hlt]
  have hstop : rest.takeWhile isData = [] ∧ rest.dropWhile isData = rest := by
    cases rest with
    | nil => exact ⟨rfl, rfl⟩
    | cons d rest => simp [hrest d rfl]
  have hend : Text.contains sectionEnd cs = false := by
    rw [Text.contains, Option.isSome_eq_false_iff, Option.isNone_iff_eq_none]
    -- Such an end would have a closing bracket in it.
    cases hcut : Text.cutAt sectionEnd cs with
    | none => rfl
    | some parts =>
      obtain ⟨before, behind⟩ := parts
      have hbracket : '>' ∈ cs := by
        rw [Text.cutAt_eq_some hcut]
        simp [sectionEnd]
      exact absurd rfl (hcs _ hbracket).2.2
  have hread : readData? (cs ++ rest) = some (data cs, rest) := by
    rw [readData?, List.takeWhile_append_of_pos hdata, List.dropWhile_append_of_pos hdata, hstop.1,
      hstop.2, List.append_nil, if_neg (by simp [hend])]
  cases cs with
  | nil => exact absurd rfl hne
  | cons c cs =>
    rw [← hread]
    exact read?_of_isData (hdata c List.mem_cons_self) _

theorem read?_reference {name : String} {c : Char} (h : (name, c) ∈ Reference.predefined)
    (rest : List Char) :
    read? .utf8 ('&' :: (name.toList ++ [';']) ++ rest) = some (marked [c], rest) := by
  obtain ⟨hread, hresolved⟩ := Reference.read?_of_mem_predefined h rest
  rw [List.cons_append, List.append_assoc, List.singleton_append, read?, readReference?, hread]
  simp [hresolved]

end Token

end PredictiveParsing.Xml
