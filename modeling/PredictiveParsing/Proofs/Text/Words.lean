import PredictiveParsing.Text.Cut

/-
Words that are joined and taken apart again.

* `IsWord` — texts that a text can have as one of its words;
* `isWord_of_mem_words` — the words of a text are such;
* `wordChars_append` — a word ends with the text or at a blank;
* `toList_join_cons` — the characters of what is joined;
* `words_join` — words joined by spaces are the words of what they make up;
* `notMem_of_cutAt` — a text is cut at its first separator;
* `notMem_of_mem_pieces` — no part holds the separator.
-/
namespace PredictiveParsing.Text

/-! ### Words of a text -/

/-- The characters are not blank, and there are some, all from the text. -/
def IsWordOf (cs w : List Char) : Prop :=
  w ≠ [] ∧ ∀ c ∈ w, isBlank c = false ∧ c ∈ cs

section

variable {cs w : List Char} {c : Char}

theorem IsWordOf.skip (h : IsWordOf cs w) (c : Char) : IsWordOf (c :: cs) w :=
  ⟨h.1, fun d hd => ⟨(h.2 d hd).1, List.mem_cons_of_mem c (h.2 d hd).2⟩⟩

theorem isWordOf_singleton (hc : isBlank c = false) (cs : List Char) : IsWordOf (c :: cs) [c] :=
  ⟨List.cons_ne_nil c [], by simp [hc]⟩

theorem IsWordOf.cons (h : IsWordOf cs w) (hc : isBlank c = false) : IsWordOf (c :: cs) (c :: w) :=
  ⟨List.cons_ne_nil c w, List.forall_mem_cons.2 ⟨⟨hc, List.mem_cons_self⟩, (h.skip c).2⟩⟩

end

/-- Words are what their name says. -/
theorem isWordOf_of_mem_wordChars (cs : List Char) : ∀ w ∈ wordChars cs, IsWordOf cs w := by
  fun_induction wordChars cs with
  | case1 => simp
  | case2 c cs _ ih => exact fun w hw => (ih w hw).skip c
  | case3 c hc =>
    intro w hw
    obtain rfl := List.mem_singleton.1 hw
    exact isWordOf_singleton (by simpa using hc) []
  | case4 c hc d cs _ ih =>
    intro w hw
    rcases List.mem_cons.1 hw with rfl | hw
    · exact isWordOf_singleton (by simpa using hc) _
    · exact (ih w hw).skip c
  | case5 c hc d cs _ v vs hv ih =>
    rw [hv] at ih ⊢
    intro w hw
    rcases List.mem_cons.1 hw with rfl | hw
    · exact (ih v List.mem_cons_self).cons (by simpa using hc)
    · exact (ih w (List.mem_cons_of_mem v hw)).skip c
  | case6 c hc d cs _ hv _ =>
    rw [hv]
    intro w hw
    obtain rfl := List.mem_singleton.1 hw
    exact isWordOf_singleton (by simpa using hc) _

/-- The text is not empty and has no blank. -/
def IsWord (w : String) : Prop :=
  w ≠ "" ∧ ∀ c ∈ w.toList, isBlank c = false

/-- **The words of a text are words**, made up of its characters. -/
theorem isWord_of_mem_words {s w : String} (h : w ∈ words s) :
    IsWord w ∧ ∀ c ∈ w.toList, c ∈ s.toList := by
  obtain ⟨cs, hcs, rfl⟩ := List.mem_map.1 h
  obtain ⟨hne, hw⟩ := isWordOf_of_mem_wordChars _ cs hcs
  rw [IsWord, String.toList_ofList]
  refine ⟨⟨?_, fun c hc => (hw c hc).1⟩, fun c hc => (hw c hc).2⟩
  intro he
  exact hne (String.ofList_eq_empty_iff.1 he)

/-- A word has no blanks at its ends. -/
theorem IsWord.trim_eq {w : String} (h : IsWord w) : trim w = w := by
  rw [trim, trimChars_eq_self, String.ofList_toList]
  · exact fun c hc => h.2 c (List.mem_of_mem_head? hc)
  · exact fun c hc => h.2 c (List.mem_of_mem_getLast? hc)

/-- A blank at the end makes no difference to what is trimmed. -/
theorem trimChars_append_blank (cs : List Char) {b : Char} (hb : isBlank b = true) :
    trimChars (cs ++ [b]) = trimChars cs := by
  rw [trimChars, trimChars, List.dropWhile_append]
  split
  · next hempty => simp [List.isEmpty_iff.1 hempty, hb]
  · rw [List.reverse_append, List.reverse_singleton, List.singleton_append,
      List.dropWhile_cons_of_pos hb]

/-! ### Joining words -/

/-- A blank in front makes no difference. -/
theorem wordChars_cons_blank {c : Char} (hc : isBlank c = true) (cs : List Char) :
    wordChars (c :: cs) = wordChars cs := by
  simp [wordChars.eq_def (c :: cs), hc]

/-- Another character in front belongs to the first word. -/
theorem wordChars_cons_cons {c d : Char} (hc : isBlank c = false) (hd : isBlank d = false)
    {cs w : List Char} {ws : List (List Char)} (h : wordChars (d :: cs) = w :: ws) :
    wordChars (c :: d :: cs) = (c :: w) :: ws := by
  simp [wordChars.eq_def (c :: d :: cs), hc, hd, h]

/-- **A word ends with the text or at a blank.** -/
theorem wordChars_append {w : List Char} (hne : w ≠ []) (hw : ∀ c ∈ w, isBlank c = false)
    (rest : List Char) (hrest : ∀ c ∈ rest.head?, isBlank c = true) :
    wordChars (w ++ rest) = w :: wordChars rest := by
  induction w with
  | nil => exact absurd rfl hne
  | cons c w ih =>
    obtain ⟨hc, hw⟩ := List.forall_mem_cons.1 hw
    -- The last character of the word looks at what is behind, the others at the word.
    cases w with
    | nil =>
      cases rest with
      | nil => simp [wordChars, hc]
      | cons b rest => simp [wordChars.eq_def (c :: b :: rest), hc, hrest b rfl]
    | cons d w =>
      exact wordChars_cons_cons hc (hw d List.mem_cons_self) (ih (List.cons_ne_nil d w) hw)

theorem isBlank_space : isBlank ' ' = true := by decide

theorem join_singleton (w : String) : join " " [w] = w := by
  simp [join]

/-- All parts but the first have the separator in front of them. -/
theorem toList_join_cons (sep w : String) (ws : List String) :
    (join sep (w :: ws)).toList = w.toList ++ ws.flatMap fun v => sep.toList ++ v.toList := by
  induction ws generalizing w with
  | nil => simp [join]
  | cons v ws ih =>
    have hcons : (join sep (w :: v :: ws)).toList =
        w.toList ++ (sep.toList ++ (join sep (v :: ws)).toList) := by
      simp [join, String.toList_intercalate]
    rw [hcons, ih, List.flatMap_cons, List.append_assoc]

theorem toList_join_cons_cons (w v : String) (ws : List String) :
    (join " " (w :: v :: ws)).toList = w.toList ++ ' ' :: (join " " (v :: ws)).toList := by
  simp [join, String.toList_intercalate]

/-- **Words joined by spaces are the words of what they make up.** -/
theorem words_join {ws : List String} (h : ∀ w ∈ ws, IsWord w) : words (join " " ws) = ws := by
  have hchars : wordChars (join " " ws).toList = ws.map String.toList := by
    induction ws with
    | nil => rfl
    | cons w ws ih =>
      obtain ⟨⟨hne, hw⟩, hws⟩ := List.forall_mem_cons.1 h
      have hnil : w.toList ≠ [] := fun he => hne (String.toList_eq_nil_iff.1 he)
      cases ws with
      | nil => simpa [join_singleton, wordChars] using wordChars_append hnil hw [] (by simp)
      | cons v ws =>
        have hspace : ∀ c ∈ (' ' :: (join " " (v :: ws)).toList).head?, isBlank c = true := by
          simp [isBlank_space]
        rw [toList_join_cons_cons, wordChars_append hnil hw _ hspace,
          wordChars_cons_blank isBlank_space, ih hws]
        rfl
  rw [words, hchars, List.map_map]
  simp [Function.comp_def]

/-- What joins words is made of their characters and of spaces. -/
theorem mem_join {ws : List String} {c : Char} (h : c ∈ (join " " ws).toList) :
    c = ' ' ∨ ∃ w ∈ ws, c ∈ w.toList := by
  induction ws with
  | nil => simp [join] at h
  | cons w ws ih =>
    cases ws with
    | nil =>
      rw [join_singleton] at h
      exact .inr ⟨w, List.mem_cons_self, h⟩
    | cons v ws =>
      rw [toList_join_cons_cons, List.mem_append, List.mem_cons] at h
      rcases h with h | rfl | h
      · exact .inr ⟨w, List.mem_cons_self, h⟩
      · exact .inl rfl
      · exact (ih h).imp_right fun ⟨u, hu, hc⟩ => ⟨u, List.mem_cons_of_mem w hu, hc⟩

/-- Joined words end as the last of them does. -/
theorem exists_getLast?_join {ws : List String} (hne : ws ≠ []) (h : ∀ w ∈ ws, IsWord w) :
    ∃ c, (join " " ws).toList.getLast? = some c ∧ isBlank c = false := by
  induction ws with
  | nil => exact absurd rfl hne
  | cons w ws ih =>
    obtain ⟨⟨hw, hblank⟩, hws⟩ := List.forall_mem_cons.1 h
    cases ws with
    | nil =>
      have hnil : w.toList ≠ [] := fun he => hw (String.toList_eq_nil_iff.1 he)
      rw [join_singleton]
      exact ⟨_, List.getLast?_eq_some_getLast hnil, hblank _ (List.getLast_mem hnil)⟩
    | cons v ws =>
      obtain ⟨c, hc, hb⟩ := ih (List.cons_ne_nil v ws) hws
      refine ⟨c, ?_, hb⟩
      rw [toList_join_cons_cons, List.getLast?_append, List.getLast?_cons, hc]
      rfl

/-! ### Separators -/

theorem prefix_of_cutAt {sep cs before behind : List Char}
    (h : cutAt sep cs = some (before, behind)) : before <+: cs :=
  ⟨sep ++ behind, by rw [cutAt_eq_some h, List.append_assoc]⟩

/-- A text is cut at the first occurrence of a character. -/
theorem notMem_of_cutAt {c : Char} {cs before behind : List Char}
    (h : cutAt [c] cs = some (before, behind)) : c ∉ before := by
  induction cs generalizing before with
  | nil => simp [cutAt] at h
  | cons d cs ih =>
    rw [cutAt] at h
    split at h
    · obtain ⟨rfl, -⟩ := Prod.mk.inj (Option.some.inj h)
      exact List.not_mem_nil
    · next hd =>
      obtain ⟨⟨front, back⟩, hcut, he⟩ := Option.map_eq_some_iff.1 h
      obtain ⟨rfl, rfl⟩ := Prod.mk.inj he
      have hne : c ≠ d := by
        rintro rfl
        simp at hd
      simp [hne, ih hcut]

theorem contains_eq_true_iff {c : Char} {cs : List Char} : contains [c] cs = true ↔ c ∈ cs := by
  induction cs with
  | nil => simp [contains, cutAt]
  | cons d cs ih =>
    rw [contains, cutAt]
    split
    · next hd => simp_all
    · next hd =>
      have hne : c ≠ d := by
        rintro rfl
        simp at hd
      rw [Option.isSome_map, ← contains, ih, List.mem_cons, or_iff_right hne]

/-- No part holds the separator. -/
theorem notMem_of_mem_pieces (sep : Char) (cs : List Char) : ∀ p ∈ pieces sep cs, sep ∉ p := by
  fun_induction pieces sep cs with
  | case1 => simp
  | case2 cs ih => exact List.forall_mem_cons.2 ⟨List.not_mem_nil, ih⟩
  | case3 c cs hc p ps hps ih =>
    rw [hps] at ih
    obtain ⟨hp, hrest⟩ := List.forall_mem_cons.1 ih
    exact List.forall_mem_cons.2 ⟨by simp [hp, Ne.symm hc], hrest⟩
  | case4 c cs hc hps _ => simp [Ne.symm hc]

theorem pieces_ne_nil (sep : Char) (cs : List Char) : pieces sep cs ≠ [] := by
  fun_induction pieces sep cs <;> simp

end PredictiveParsing.Text
