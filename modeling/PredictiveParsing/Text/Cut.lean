import PredictiveParsing.Text.Blank

/-
Cutting a text at a separator.

* `cutAt sep` — the parts before and behind the first occurrence of `sep`;
* `contains sep` — whether there is one;
* `pieces c` — all the parts between the occurrences of one character;
* `cutAt_eq_some` — the two parts and the separator make up the text;
* `cutAt_of_notMem` — a text is cut at its first separator;
* `pieces_of_notMem`, `pieces_append_cons` — the parts, one after the other;
* `length_of_cutAt` — the part behind is no longer than the text.
-/
namespace PredictiveParsing.Text

/-- The characters before and behind the first occurrence of `sep`. -/
def cutAt (sep : List Char) : List Char → Option (List Char × List Char)
  | [] => if sep.isEmpty then some ([], []) else none
  | c :: cs =>
    if sep.isPrefixOf (c :: cs) then some ([], (c :: cs).drop sep.length)
    else (cutAt sep cs).map fun parts => (c :: parts.1, parts.2)

/-- Whether `sep` occurs in the characters. -/
def contains (sep cs : List Char) : Bool :=
  (cutAt sep cs).isSome

/-- The parts between the occurrences of a character; always at least one. -/
def pieces (sep : Char) : List Char → List (List Char)
  | [] => [[]]
  | c :: cs =>
    if c = sep then [] :: pieces sep cs
    else match pieces sep cs with
      | p :: ps => (c :: p) :: ps
      | [] => [[c]]

/-- Joins texts with a separator between neighbours. -/
def join (sep : String) (parts : List String) : String :=
  sep.intercalate parts

/-- Cutting loses nothing but the separator. -/
theorem cutAt_eq_some {sep cs before behind : List Char}
    (h : cutAt sep cs = some (before, behind)) : cs = before ++ sep ++ behind := by
  induction cs generalizing before with
  | nil =>
    simp only [cutAt] at h
    split at h
    · simp_all
    · simp at h
  | cons c cs ih =>
    rw [cutAt] at h
    split at h
    · next pre =>
      obtain ⟨rest, hr⟩ := List.isPrefixOf_iff_prefix.1 pre
      obtain ⟨rfl, rfl⟩ : [] = before ∧ (c :: cs).drop sep.length = behind := by
        simpa using h
      rw [← hr]; simp
    · obtain ⟨⟨p, q⟩, hp, he⟩ := Option.map_eq_some_iff.1 h
      obtain ⟨rfl, rfl⟩ : c :: p = before ∧ q = behind := by simpa using he
      rw [ih hp]; simp

/-- A text is cut at the separator behind characters with which none begins. -/
theorem cutAt_of_notMem {c : Char} {before : List Char} (h : c ∉ before) (sep rest : List Char) :
    cutAt (c :: sep) (before ++ (c :: sep ++ rest)) = some (before, rest) := by
  induction before with
  | nil =>
    rw [List.nil_append, List.cons_append, cutAt, if_pos]
    · simp
    · exact List.isPrefixOf_iff_prefix.2 (List.prefix_append (c :: sep) rest)
  | cons d before ih =>
    obtain ⟨hd, hbefore⟩ := not_or.1 (mt List.mem_cons.2 h)
    rw [List.cons_append, cutAt, if_neg, ih hbefore]
    · rfl
    · simp [hd]

/-- A text without the separator is one part. -/
theorem pieces_of_notMem {sep : Char} {cs : List Char} (h : sep ∉ cs) : pieces sep cs = [cs] := by
  induction cs with
  | nil => rfl
  | cons c cs ih =>
    obtain ⟨hc, hcs⟩ := not_or.1 (mt List.mem_cons.2 h)
    rw [pieces, if_neg (Ne.symm hc), ih hcs]

/-- The first part is what stands before the first separator. -/
theorem pieces_append_cons {sep : Char} {cs : List Char} (h : sep ∉ cs) (rest : List Char) :
    pieces sep (cs ++ sep :: rest) = cs :: pieces sep rest := by
  induction cs with
  | nil => rw [List.nil_append, pieces, if_pos rfl]
  | cons c cs ih =>
    obtain ⟨hc, hcs⟩ := not_or.1 (mt List.mem_cons.2 h)
    rw [List.cons_append, pieces, if_neg (Ne.symm hc), ih hcs]

/-- What is behind the separator is no longer than the text. -/
theorem length_of_cutAt {sep cs before behind : List Char}
    (h : cutAt sep cs = some (before, behind)) : behind.length ≤ cs.length := by
  rw [cutAt_eq_some h]
  simp only [List.length_append]
  omega

end PredictiveParsing.Text
