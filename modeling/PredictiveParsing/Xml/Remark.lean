import PredictiveParsing.Text.Cut
import PredictiveParsing.Xml.Reader

/-
Remarks: comments and instructions.

They mean nothing to a reader of elements and are passed over; what stands
inside them is free but for the mark that ends it.

* `afterComment?`, `afterInstruction?` — the text behind a remark.

Design notes:

* Instructions are for somebody named at their front.  No instruction is for
  `xml`, in any case of its letters: that name is kept for the declaration of a
  document.
-/
namespace PredictiveParsing.Xml

/-- The text behind a comment, given the text behind its opening mark; two
hyphens end a comment. -/
def afterComment? (cs : List Char) : Option (List Char) :=
  match Text.cutAt ['-', '-'] cs with
  | none => none
  | some (_, rest) => after? ['>'] rest

/-- Whether a name is kept for the declaration of a document. -/
def isReservedTarget (name : List Char) : Bool :=
  name.map Char.toLower == ['x', 'm', 'l']

/-- The text behind an instruction, given the text behind its opening mark. -/
def afterInstruction? (e : Encoding) (cs : List Char) : Option (List Char) :=
  match name? e cs with
  | none => none
  | some (name, rest) =>
    if isReservedTarget name then none
    else if rest.head?.any isSpace then (Text.cutAt ['?', '>'] rest).map (·.2)
    else after? ['?', '>'] rest

theorem length_of_afterComment? {cs rest : List Char} (h : afterComment? cs = some rest) :
    rest.length ≤ cs.length := by
  unfold afterComment? at h
  split at h
  · simp at h
  · next inside rest₁ hc => exact Nat.le_trans (length_of_after? h) (Text.length_of_cutAt hc)

theorem length_of_afterInstruction? {e : Encoding} {cs rest : List Char}
    (h : afterInstruction? e cs = some rest) : rest.length ≤ cs.length := by
  unfold afterInstruction? at h
  split at h
  · simp at h
  · next name rest₁ hn =>
    have h₁ := length_of_name? hn
    split at h
    · simp at h
    · split at h
      · obtain ⟨parts, hc, rfl⟩ := Option.map_eq_some_iff.1 h
        have h₂ := Text.length_of_cutAt hc
        omega
      · have h₂ := length_of_after? h
        omega

end PredictiveParsing.Xml
