import PredictiveParsing.Xml.Doctype
import PredictiveParsing.Xml.Tag

/-
Tokens of XML documents.

The characters of a document fall into tags, character data, and markup that
means nothing to a reader of elements (comments, instructions).  Tokens are
read without regard to their order; that is checked when the elements are
put together.

* `Token` — the tokens;
* `Token.read?` — the token at the front of a text;
* `Token.reader` — reads one token after the other;
* `Token.length_of_read?` — reading a token takes at least one character.

Design notes:

* Line ends are taken to be line feeds already, and all characters to be
  allowed ones; both are seen to for the whole document at once.
-/
namespace PredictiveParsing.Xml

/-- What a document consists of. -/
inductive Token where
  /-- A tag that begins an element. -/
  | opening (tag : Tag)
  /-- A tag that is an element by itself. -/
  | lone (tag : Tag)
  /-- A tag that ends an element. -/
  | closing (name : QualifiedName)
  /-- Characters that stand for themselves. -/
  | data (cs : List Char)
  /-- Characters that were given by a reference or in a marked section. -/
  | marked (cs : List Char)
  /-- A reference to an entity that is not predefined. -/
  | reference (name : String)
  /-- A comment or an instruction. -/
  | remark
  | doctype (t : Doctype)
  deriving DecidableEq, Repr, Inhabited

namespace Token

/-! ### Tags -/

/-- The tag behind its opening bracket. -/
def readTag? (e : Encoding) (cs : List Char) : Option (Token × List Char) :=
  match QualifiedName.read? e cs with
  | none => none
  | some (name, rest) =>
    match (Attribute.reader e).all? rest with
    | some (attributes, '>' :: rest) => some (opening ⟨name, attributes⟩, rest)
    | some (attributes, '/' :: '>' :: rest) => some (lone ⟨name, attributes⟩, rest)
    | _ => none

/-- The tag behind its opening bracket and slash. -/
def readClosing? (e : Encoding) (cs : List Char) : Option (Token × List Char) :=
  match QualifiedName.read? e cs with
  | none => none
  | some (name, rest) =>
    (after? ['>'] (skipSpace rest)).map fun rest => (closing name, rest)

/-! ### Character data -/

/-- What ends a marked section. -/
def sectionEnd : List Char := [']', ']', '>']

/-- The marked section behind its opening mark. -/
def readSection? (cs : List Char) : Option (Token × List Char) :=
  (Text.cutAt sectionEnd cs).map fun parts => (marked parts.1, parts.2)

/-- The characters that begin no markup. -/
def isData (c : Char) : Bool :=
  c ≠ '<' && c ≠ '&'

/-- Character data: what stands before the next tag or reference.  It must not
hold the end of a marked section. -/
def readData? (cs : List Char) : Option (Token × List Char) :=
  if Text.contains sectionEnd (cs.takeWhile isData) then none
  else some (data (cs.takeWhile isData), cs.dropWhile isData)

/-- The reference behind its ampersand. -/
def readReference? (e : Encoding) (cs : List Char) : Option (Token × List Char) :=
  (Reference.read? e cs).map fun r =>
    match r.1.resolved with
    | .char c => (marked [c], r.2)
    | .entity name => (reference name, r.2)

/-! ### Any token -/

/-- The markup behind an exclamation mark. -/
def readDeclaration? (e : Encoding) (cs : List Char) : Option (Token × List Char) :=
  match after? "--".toList cs, after? "[CDATA[".toList cs, after? "DOCTYPE".toList cs with
  | some cs, _, _ => (afterComment? cs).map fun rest => (remark, rest)
  | _, some cs, _ => readSection? cs
  | _, _, some cs => (Doctype.read? e cs).map fun r => (doctype r.1, r.2)
  | _, _, _ => none

/-- The token at the front of a text that is not empty, and what follows it. -/
def read? (e : Encoding) : List Char → Option (Token × List Char)
  | '<' :: '/' :: cs => readClosing? e cs
  | '<' :: '?' :: cs => (afterInstruction? e cs).map fun rest => (remark, rest)
  | '<' :: '!' :: cs => readDeclaration? e cs
  | '<' :: cs => readTag? e cs
  | '&' :: cs => readReference? e cs
  | cs => readData? cs

/-! ### Reading takes characters -/

theorem length_of_readTag? {e : Encoding} {cs rest : List Char} {t : Token}
    (h : readTag? e cs = some (t, rest)) :
    rest.length ≤ cs.length := by
  unfold readTag? at h
  split at h
  · simp at h
  · next name rest₁ hn =>
    have h₁ := QualifiedName.length_of_read? hn
    split at h
    · next attributes rest₂ ha =>
      have h₂ := (Attribute.reader e).length_of_all? Attribute.length_of_next_none ha
      obtain rfl := (Prod.mk.inj (Option.some.inj h)).2
      simp only [List.length_cons] at h₂
      omega
    · next attributes rest₂ ha =>
      have h₂ := (Attribute.reader e).length_of_all? Attribute.length_of_next_none ha
      obtain rfl := (Prod.mk.inj (Option.some.inj h)).2
      simp only [List.length_cons] at h₂
      omega
    · simp at h

theorem length_of_readClosing? {e : Encoding} {cs rest : List Char} {t : Token}
    (h : readClosing? e cs = some (t, rest)) : rest.length ≤ cs.length := by
  unfold readClosing? at h
  split at h
  · simp at h
  · next name rest₁ hn =>
    obtain ⟨rest₂, ha, he⟩ := Option.map_eq_some_iff.1 h
    obtain rfl := (Prod.mk.inj he).2
    have h₁ := QualifiedName.length_of_read? hn
    have h₂ := length_skipSpace_le rest₁
    have h₃ := length_of_after? ha
    omega

theorem length_of_readSection? {cs rest : List Char} {t : Token}
    (h : readSection? cs = some (t, rest)) : rest.length ≤ cs.length := by
  obtain ⟨parts, hc, he⟩ := Option.map_eq_some_iff.1 h
  obtain rfl := (Prod.mk.inj he).2
  exact Text.length_of_cutAt hc

theorem length_of_readReference? {e : Encoding} {cs rest : List Char} {t : Token}
    (h : readReference? e cs = some (t, rest)) : rest.length ≤ cs.length := by
  obtain ⟨⟨r, rest₁⟩, hr, he⟩ := Option.map_eq_some_iff.1 h
  obtain rfl : rest₁ = rest := by
    simp only at he
    split at he <;> exact (Prod.mk.inj he).2
  exact Reference.length_of_read? hr

theorem length_of_readDeclaration? {e : Encoding} {cs rest : List Char} {t : Token}
    (h : readDeclaration? e cs = some (t, rest)) : rest.length ≤ cs.length := by
  unfold readDeclaration? at h
  split at h
  · obtain ⟨rest₁, hc, he⟩ := Option.map_eq_some_iff.1 h
    obtain rfl := (Prod.mk.inj he).2
    exact Nat.le_trans (length_of_afterComment? hc)
      (length_of_after? ‹after? "--".toList cs = some _›)
  · exact Nat.le_trans (length_of_readSection? h)
      (length_of_after? ‹after? "[CDATA[".toList cs = some _›)
  · obtain ⟨⟨t', rest₁⟩, hd, he⟩ := Option.map_eq_some_iff.1 h
    obtain rfl := (Prod.mk.inj he).2
    exact Nat.le_trans (Doctype.length_of_read? hd)
      (length_of_after? ‹after? "DOCTYPE".toList cs = some _›)
  · simp at h

theorem length_of_readData? {c : Char} {cs rest : List Char} {t : Token} (hc : isData c = true)
    (h : readData? (c :: cs) = some (t, rest)) : rest.length < (c :: cs).length := by
  unfold readData? at h
  split at h
  · simp at h
  · obtain rfl := (Prod.mk.inj (Option.some.inj h)).2
    have h₁ := (List.dropWhile_sublist (l := cs) isData).length_le
    simp only [List.dropWhile_cons, hc, if_true, List.length_cons]
    omega

/-- Reading a token takes at least one character. -/
theorem length_of_read? {e : Encoding} {c : Char} {cs rest : List Char} {t : Token}
    (h : read? e (c :: cs) = some (t, rest)) : rest.length < (c :: cs).length := by
  unfold read? at h
  split at h
  · next hs =>
    obtain ⟨-, rfl⟩ := List.cons.inj hs
    have := length_of_readClosing? h
    simp only [List.length_cons]
    omega
  · next hs =>
    obtain ⟨-, rfl⟩ := List.cons.inj hs
    obtain ⟨rest₁, hi, he⟩ := Option.map_eq_some_iff.1 h
    obtain rfl := (Prod.mk.inj he).2
    have := length_of_afterInstruction? hi
    simp only [List.length_cons]
    omega
  · next hs =>
    obtain ⟨-, rfl⟩ := List.cons.inj hs
    have := length_of_readDeclaration? h
    simp only [List.length_cons]
    omega
  · next hs =>
    obtain ⟨-, rfl⟩ := List.cons.inj hs
    have := length_of_readTag? h
    simp only [List.length_cons]
    omega
  · next hs =>
    obtain ⟨-, rfl⟩ := List.cons.inj hs
    have := length_of_readReference? h
    simp only [List.length_cons]
    omega
  · next h₄ h₅ =>
    refine length_of_readData? ?_ h
    simp only [isData, Bool.and_eq_true, decide_eq_true_eq, ne_eq]
    exact ⟨fun e => h₄ cs (by rw [e]), fun e => h₅ cs (by rw [e])⟩

/-! ### All tokens -/

/-- Reads one token after the other. -/
def reader (e : Encoding) : Reader Char Token where
  next
    | [] => some (none, [])
    | c :: cs => (read? e (c :: cs)).map fun r => (some r.1, r.2)
  shorter := by
    intro cs a rest h
    cases cs with
    | nil => simp at h
    | cons c cs =>
      obtain ⟨⟨t, rest'⟩, hr, he⟩ := Option.map_eq_some_iff.1 h
      obtain rfl := (Prod.mk.inj he).2
      exact length_of_read? hr

/-- All tokens of a text. -/
def readAll? (e : Encoding) (cs : List Char) : Option (List Token) :=
  ((reader e).all? cs).map (·.1)

end Token

end PredictiveParsing.Xml
