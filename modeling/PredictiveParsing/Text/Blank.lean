/-
Blank characters, trimming, words and the ends of lines.

A text is handled as its list of characters; the functions on `String` only
wrap those on `List Char`.

* `isBlank` — the characters that separate words;
* `trim` — a text without the blanks at its two ends;
* `words` — the maximal runs of characters that are not blank;
* `withLineFeeds` — a text with every kind of line end turned into a line feed;
* `trimChars_eq_self` — a text without blanks at its ends is left alone;
* `head?_trimChars`, `getLast?_trimChars` — a trimmed text has none there;
* `trim_trim` — trimming twice is trimming once;
* `withLineFeeds_eq_self` — a text without carriage returns stays as it is.

Design notes:

* The set is wider than ASCII: every control character that separates lines
  or records and every Unicode space counts, the zero-width ones do not.
-/
namespace PredictiveParsing.Text

/-- Code points of blank characters, as inclusive ranges in ascending order. -/
def blankRanges : List (Nat × Nat) :=
  [(0x9, 0xD), (0x1C, 0x20), (0x85, 0x85), (0xA0, 0xA0), (0x1680, 0x1680),
    (0x2000, 0x200A), (0x2028, 0x2029), (0x202F, 0x202F), (0x205F, 0x205F),
    (0x3000, 0x3000)]

/-- A blank separates words and may be trimmed away. -/
def isBlank (c : Char) : Bool :=
  blankRanges.any fun r => r.1 ≤ c.toNat && c.toNat ≤ r.2

/-- The characters without the blanks in front and behind. -/
def trimChars (cs : List Char) : List Char :=
  ((cs.dropWhile isBlank).reverse.dropWhile isBlank).reverse

/-- The text without the blanks in front and behind. -/
def trim (s : String) : String :=
  .ofList (trimChars s.toList)

/-- The maximal runs of characters that are not blank, in order. -/
def wordChars : List Char → List (List Char)
  | [] => []
  | c :: cs =>
    if isBlank c then wordChars cs
    else match cs, wordChars cs with
      | [], _ => [[c]]
      | d :: _, ws =>
        if isBlank d then [c] :: ws
        else match ws with
          | w :: ws => (c :: w) :: ws
          | [] => [[c]]

/-- The words of a text. -/
def words (s : String) : List String :=
  (wordChars s.toList).map .ofList

/-- The text with every kind of line end turned into a line feed. -/
def withLineFeeds : List Char → List Char
  | [] => []
  | '\r' :: '\n' :: cs => '\n' :: withLineFeeds cs
  | '\r' :: cs => '\n' :: withLineFeeds cs
  | c :: cs => c :: withLineFeeds cs

/-! ### What trimming and cutting leave -/

@[simp] theorem toList_trim (s : String) : (trim s).toList = trimChars s.toList := by
  simp [trim]

/-- Characters that neither begin nor end with a blank are left alone. -/
theorem trimChars_eq_self {cs : List Char}
    (hd : ∀ c ∈ cs.head?, isBlank c = false)
    (hl : ∀ c ∈ cs.getLast?, isBlank c = false) : trimChars cs = cs := by
  have front : cs.dropWhile isBlank = cs := by
    cases cs with
    | nil => rfl
    | cons c cs => simp [hd c (by simp)]
  have back : cs.reverse.dropWhile isBlank = cs.reverse := by
    cases h : cs.reverse with
    | nil => rfl
    | cons c r =>
      have : c ∈ cs.getLast? := by
        rw [List.getLast?_eq_head?_reverse, h]; simp
      simp [hl c this]
  rw [trimChars, front, back, List.reverse_reverse]

theorem getLast?_trimChars (cs : List Char) :
    ∀ c ∈ (trimChars cs).getLast?, isBlank c = false := by
  intro c hc
  rw [trimChars, List.getLast?_reverse] at hc
  have hn := List.head?_dropWhile_not isBlank (cs.dropWhile isBlank).reverse
  rw [Option.mem_def.1 hc] at hn
  simpa using hn

/-- What is trimmed begins where the blanks in front end. -/
theorem trimChars_isPrefix (cs : List Char) : trimChars cs <+: cs.dropWhile isBlank := by
  rw [← List.reverse_suffix, trimChars, List.reverse_reverse]
  exact List.dropWhile_suffix _

theorem head?_trimChars (cs : List Char) :
    ∀ c ∈ (trimChars cs).head?, isBlank c = false := by
  intro c hc
  have hd : (cs.dropWhile isBlank).head? = some c := by
    obtain ⟨rest, hr⟩ := trimChars_isPrefix cs
    rw [← hr, List.head?_append, Option.mem_def.1 hc]
    rfl
  have hn := List.head?_dropWhile_not isBlank cs
  rw [hd] at hn
  simpa using hn

@[simp] theorem trim_trim (s : String) : trim (trim s) = trim s := by
  rw [trim, toList_trim, trimChars_eq_self (head?_trimChars _) (getLast?_trimChars _), trim]

/-- A trimmed text with something behind it that does not end in a blank is
trimmed as well. -/
theorem trim_append {s t : String} (hs : trim s = s) (hne : s ≠ "")
    (ht : ∀ c ∈ t.toList.getLast?, isBlank c = false) (htne : t ≠ "") :
    trim (s ++ t) = s ++ t := by
  have hs' : trimChars s.toList = s.toList := by rw [← toList_trim, hs]
  have hsn : s.toList ≠ [] := fun h => hne (String.toList_eq_nil_iff.1 h)
  have htn : t.toList ≠ [] := fun h => htne (String.toList_eq_nil_iff.1 h)
  rw [trim, trimChars_eq_self, String.ofList_toList]
  · intro c hc
    rw [String.toList_append, List.head?_append, List.head?_eq_some_head hsn, Option.some_or] at hc
    rw [← List.head?_eq_some_head hsn, ← hs'] at hc
    exact head?_trimChars _ c hc
  · intro c hc
    rw [String.toList_append, List.getLast?_append, List.getLast?_eq_some_getLast htn,
      Option.some_or] at hc
    exact ht c (by rw [List.getLast?_eq_some_getLast htn]; exact hc)

/-! ### Line ends -/

/-- A text without carriage returns stays as it is. -/
theorem withLineFeeds_eq_self {cs : List Char} (h : '\r' ∉ cs) : withLineFeeds cs = cs := by
  fun_induction withLineFeeds cs with
  | case1 => rfl
  | case2 cs => simp at h
  | case3 cs => simp at h
  | case4 c cs => simp_all

end PredictiveParsing.Text
