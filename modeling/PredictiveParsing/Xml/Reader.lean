import PredictiveParsing.Xml.Name

/-
Reading a text, or any other list, piece by piece.

* `Reader` — takes one thing after the other off the front of a list;
* `Reader.all?` — everything a reader takes, and what it leaves;
* `skipSpace`, `after?` — the text behind spaces, or behind given characters;
* `Reader.length_of_all?` — what is left is no longer than the list.

Design notes:

* A reader carries the proof that it takes at least one character each time, so
  applying it again and again comes to an end.
-/
namespace PredictiveParsing.Xml

/-- Takes things off the front of a list.  It may fail, and it may say that
there are no more. -/
structure Reader (σ α : Type) where
  next : List σ → Option (Option α × List σ)
  shorter : ∀ {cs a rest}, next cs = some (some a, rest) → rest.length < cs.length

/-- Everything a reader takes until it says that there is no more, and what is
left then. -/
def Reader.all? {σ α : Type} (r : Reader σ α) (cs : List σ) : Option (List α × List σ) :=
  match _h : r.next cs with
  | none => none
  | some (none, rest) => some ([], rest)
  | some (some a, rest) => (r.all? rest).map fun taken => (a :: taken.1, taken.2)
termination_by cs.length
decreasing_by exact r.shorter _h

/-- The text behind the spaces at its front. -/
def skipSpace (cs : List Char) : List Char :=
  cs.dropWhile isSpace

/-- The text behind the given characters, if it begins with them. -/
def after? (front cs : List Char) : Option (List Char) :=
  if front.isPrefixOf cs then some (cs.drop front.length) else none

/-! ### What reading leaves -/

theorem length_skipSpace_le (cs : List Char) : (skipSpace cs).length ≤ cs.length :=
  (List.dropWhile_sublist isSpace).length_le

theorem length_of_after? {front cs rest : List Char} (h : after? front cs = some rest) :
    rest.length ≤ cs.length := by
  unfold after? at h
  split at h
  · obtain rfl : cs.drop front.length = rest := by simpa using h
    simp
  · simp at h

/-- What is left is no longer than the list, if the reader itself leaves no
longer list when it stops. -/
theorem Reader.length_of_all? {σ α : Type} (r : Reader σ α)
    (stops : ∀ {cs rest}, r.next cs = some (none, rest) → rest.length ≤ cs.length)
    {cs rest : List σ} {taken : List α} (h : r.all? cs = some (taken, rest)) :
    rest.length ≤ cs.length := by
  induction cs using Reader.all?.induct r generalizing taken with
  | case1 cs hn => rw [Reader.all?] at h; split at h <;> simp_all
  | case2 cs rest' hn =>
    rw [Reader.all?] at h
    have := stops hn
    split at h <;> simp_all
  | case3 cs a rest' hn ih =>
    rw [Reader.all?] at h
    have hs := r.shorter hn
    split at h
    · simp at h
    · simp_all
    · next a' rest'' hn' =>
      obtain ⟨rfl, rfl⟩ : a = a' ∧ rest' = rest'' := by
        rw [hn] at hn'; simpa using hn'
      obtain ⟨⟨taken', rest''⟩, hr, he⟩ := Option.map_eq_some_iff.1 h
      obtain ⟨-, rfl⟩ := Prod.mk.inj he
      have := ih hr
      omega

end PredictiveParsing.Xml
