import PredictiveParsing.Text.Cut
import PredictiveParsing.Xml.Reader

/-
Lexemes of declarations.

A document type and the declarations inside it are written in words, texts
between quotes and a few marks, with spaces between them where that is needed
to tell them apart.

* `Lexeme` — the words, texts and marks;
* `Lexeme.reader` — reads them up to an angle or a square bracket;
* `Lexeme.length_of_next_none` — what is left then is no longer than the text.

Design notes:

* Most lexemes say what may stand next to them.  So `a"b"` is no pair of
  lexemes, while `a "b"` is.
-/
namespace PredictiveParsing.Xml

/-- A word, a text or a mark of a declaration. -/
inductive Lexeme where
  /-- A name, and the sign behind it that says how often it may occur. -/
  | name (n : QualifiedName) (occurrence : Option Char)
  /-- A word that is no name. -/
  | word
  /-- A text between quotes. -/
  | literal (cs : List Char)
  /-- A name behind a number sign. -/
  | keyword (name : String)
  | percent
  | comma
  | bar
  | opening
  | closing (occurrence : Option Char)
  deriving DecidableEq, Repr, Inhabited

namespace Lexeme

/-- A name without a colon and with no sign behind it. -/
@[match_pattern] abbrev plain (name : String) : Lexeme :=
  Lexeme.name ⟨none, name⟩ none

/-! ### Single lexemes -/

/-- The characters of words. -/
def isWordChar (e : Encoding) (c : Char) : Bool :=
  isNameChar e c || c = ':'

/-- Whether a space or one of some characters comes first. -/
def isFollowed (followers : List Char) (cs : List Char) : Bool :=
  cs.head?.any fun c => isSpace c || followers.contains c

/-- The sign for a number of occurrences at the front, if there is one, and what
follows it; without a sign one of some characters has to follow. -/
def readOccurrence? (followers : List Char) : List Char → Option (Option Char × List Char)
  | '*' :: cs => some (some '*', cs)
  | '+' :: cs => some (some '+', cs)
  | '?' :: cs => some (some '?', cs)
  | cs => if isFollowed followers cs then some (none, cs) else none

/-- The lexeme that a word is: a name if it begins like one and has at most one
colon, with something behind it.  A word that is no name has no sign. -/
def ofWord? (e : Encoding) (word : List Char) (occurrence : Option Char) : Option Lexeme :=
  let other := if occurrence = none then some Lexeme.word else none
  if word.head?.any (isNameStart e) then
    match Text.pieces ':' word with
    | [n] => some (.name ⟨none, .ofList n⟩ occurrence)
    | [p, n] => if n = [] then other else some (.name ⟨some (.ofList p), .ofList n⟩ occurrence)
    | _ => other
  else other

/-- The word that begins with a character, and what follows it. -/
def readWord? (e : Encoding) (c : Char) (cs : List Char) : Option (Lexeme × List Char) :=
  match readOccurrence? ['>', ')', ',', '|', '[', '%'] (cs.dropWhile (isWordChar e)) with
  | none => none
  | some (occurrence, rest) =>
    (ofWord? e (c :: cs.takeWhile (isWordChar e)) occurrence).map fun l => (l, rest)

/-- The text up to a quote, and what follows the quote. -/
def readLiteral? (quote : Char) (cs : List Char) : Option (Lexeme × List Char) :=
  match Text.cutAt [quote] cs with
  | none => none
  | some (inside, rest) =>
    if isFollowed ['>', '%', '['] rest then some (.literal inside, rest) else none

/-- The name behind a number sign, and what follows it. -/
def readKeyword? (e : Encoding) (cs : List Char) : Option (Lexeme × List Char) :=
  match name? e cs with
  | none => none
  | some (n, rest) =>
    if isFollowed [')', '>', '%', '|'] rest then some (.keyword (.ofList n), rest) else none

/-- The lexeme that begins with a character, and what follows it. -/
def read? (e : Encoding) (c : Char) (cs : List Char) : Option (Lexeme × List Char) :=
  match c with
  | '(' => some (.opening, cs)
  | ',' => some (.comma, cs)
  | '|' => some (.bar, cs)
  | ')' => (readOccurrence? ['>', ',', '|', ')'] cs).map fun r => (.closing r.1, r.2)
  | '%' => if isFollowed ['%'] cs then some (.percent, cs) else none
  | '#' => readKeyword? e cs
  | '"' => readLiteral? '"' cs
  | '\'' => readLiteral? '\'' cs
  | c => if isWordChar e c then readWord? e c cs else none

/-- The next lexeme, if there is one before the next bracket. -/
def next (e : Encoding) (cs : List Char) : Option (Option Lexeme × List Char) :=
  match skipSpace cs with
  | [] => none
  | c :: rest =>
    if c = '>' ∨ c = '[' then some (none, c :: rest)
    else (read? e c rest).map fun r => (some r.1, r.2)

/-! ### Reading takes characters -/

theorem length_of_readOccurrence? {followers cs rest : List Char} {o : Option Char}
    (h : readOccurrence? followers cs = some (o, rest)) : rest.length ≤ cs.length := by
  unfold readOccurrence? at h
  split at h
  · obtain rfl := (Prod.mk.inj (Option.some.inj h)).2; simp
  · obtain rfl := (Prod.mk.inj (Option.some.inj h)).2; simp
  · obtain rfl := (Prod.mk.inj (Option.some.inj h)).2; simp
  · split at h
    · obtain rfl := (Prod.mk.inj (Option.some.inj h)).2; exact Nat.le_refl _
    · simp at h

theorem length_of_readWord? {e : Encoding} {c : Char} {cs rest : List Char} {l : Lexeme}
    (h : readWord? e c cs = some (l, rest)) : rest.length ≤ cs.length := by
  unfold readWord? at h
  split at h
  · simp at h
  · next occurrence rest₁ ho =>
    obtain ⟨l', -, he⟩ := Option.map_eq_some_iff.1 h
    obtain rfl := (Prod.mk.inj he).2
    exact Nat.le_trans (length_of_readOccurrence? ho)
      (List.dropWhile_sublist (isWordChar e)).length_le

theorem length_of_readLiteral? {quote : Char} {cs rest : List Char} {l : Lexeme}
    (h : readLiteral? quote cs = some (l, rest)) : rest.length ≤ cs.length := by
  unfold readLiteral? at h
  split at h
  · simp at h
  · next inside rest₁ hc =>
    split at h
    · obtain rfl := (Prod.mk.inj (Option.some.inj h)).2
      exact Text.length_of_cutAt hc
    · simp at h

theorem length_of_readKeyword? {e : Encoding} {cs rest : List Char} {l : Lexeme}
    (h : readKeyword? e cs = some (l, rest)) : rest.length ≤ cs.length := by
  unfold readKeyword? at h
  split at h
  · simp at h
  · next n rest₁ hn =>
    split at h
    · obtain rfl := (Prod.mk.inj (Option.some.inj h)).2
      exact Nat.le_of_lt (length_of_name? hn)
    · simp at h

/-- Reading a lexeme takes at least its first character. -/
theorem length_of_read? {e : Encoding} {c : Char} {cs rest : List Char} {l : Lexeme}
    (h : read? e c cs = some (l, rest)) : rest.length ≤ cs.length := by
  unfold read? at h
  split at h
  · obtain rfl := (Prod.mk.inj (Option.some.inj h)).2; exact Nat.le_refl _
  · obtain rfl := (Prod.mk.inj (Option.some.inj h)).2; exact Nat.le_refl _
  · obtain rfl := (Prod.mk.inj (Option.some.inj h)).2; exact Nat.le_refl _
  · obtain ⟨r, ho, he⟩ := Option.map_eq_some_iff.1 h
    obtain rfl := (Prod.mk.inj he).2
    exact length_of_readOccurrence? ho
  · split at h
    · obtain rfl := (Prod.mk.inj (Option.some.inj h)).2; exact Nat.le_refl _
    · simp at h
  · exact length_of_readKeyword? h
  · exact length_of_readLiteral? h
  · exact length_of_readLiteral? h
  · split at h
    · exact length_of_readWord? h
    · simp at h

/-- Where the lexemes end, no more is left than was there. -/
theorem length_of_next_none {e : Encoding} {cs rest : List Char}
    (h : next e cs = some (none, rest)) :
    rest.length ≤ cs.length := by
  unfold next at h
  have h₁ := length_skipSpace_le cs
  split at h
  · simp at h
  · next c rest₁ hs =>
    rw [hs] at h₁
    split at h
    · obtain rfl := (Prod.mk.inj (Option.some.inj h)).2; exact h₁
    · simp at h

/-- Reads one lexeme after the other, up to a bracket. -/
def reader (e : Encoding) : Reader Char Lexeme where
  next := next e
  shorter := by
    intro cs a rest h
    unfold next at h
    have h₁ := length_skipSpace_le cs
    split at h
    · simp at h
    · next c rest₁ hs =>
      rw [hs, List.length_cons] at h₁
      split at h
      · simp at h
      · obtain ⟨r, hr, he⟩ := Option.map_eq_some_iff.1 h
        obtain rfl := (Prod.mk.inj he).2
        have h₂ := length_of_read? hr
        omega

end Lexeme

end PredictiveParsing.Xml
