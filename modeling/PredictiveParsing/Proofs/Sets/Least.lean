import Mathlib.Data.Finset.Card
import Mathlib.Data.Finset.Prod
import PredictiveParsing.Inclusion

/-
The solution of a system of inclusions is its least one.

* `solve_induction` — what holds of the given members and is kept by every
  inclusion holds of all members that solving adds;
* `Settles`, `settles_solution` — the passes come to an end, and the solution is
  what they leave then;
* `holds_solution` — every inclusion holds of the solution.

Design notes:

* A pass that is not the last adds a name to a target that did not have it.
  `filled` counts the pairs of a target and a member.  It grows with every
  such pass and cannot exceed `room`, so the passes suffice.
-/
namespace PredictiveParsing

theorem Family.mem_flatMap_of_mem {f : Family} {n x : String} (h : x ∈ f.of n) :
    x ∈ f.flatMap (·.2) := by
  rw [Family.of] at h
  cases hg : OrderedMap.get? n f with
  | none => simp [hg] at h
  | some s =>
    rw [hg] at h
    exact List.mem_flatMap.2 ⟨(n, s), OrderedMap.mem_of_get? hg, h⟩

theorem PassLog.isBlank_blank (f : Family) : (PassLog.blank f).isBlank = true := by
  simp [PassLog.blank, PassLog.isBlank]

variable {cs : List Inclusion}

/-! ### What solving adds -/

theorem Inclusion.mem_enforce {state : Family × PassLog} {c : Inclusion} {n x : String}
    (h : x ∈ (c.enforce state).1.of n) :
    x ∈ state.1.of n ∨ n = c.target ∧ x ∈ c.value state.1 := by
  rcases c.enforce_cases state with ⟨-, he⟩ | ⟨-, he⟩
  · exact .inl (he ▸ h)
  · rw [he] at h
    by_cases hn : n = c.target
    · subst hn
      rw [Family.of_add_self, SymbolSet.mem_union] at h
      rcases h with h | h
      · exact .inl h
      · exact .inr ⟨rfl, (SymbolSet.mem_difference.1 h).1⟩
    · rw [Family.of_add_of_ne hn] at h
      exact .inl h

section

variable {P : String → String → Prop}
  (hconstants : ∀ c ∈ cs, ∀ x ∈ c.constants, P c.target x)
  (hsources : ∀ c ∈ cs, ∀ n ∈ c.sources, ∀ x, P n x → P c.target x)

include hconstants hsources

theorem foldl_enforce_induction {state : Family × PassLog}
    (h : ∀ n x, x ∈ state.1.of n → P n x) :
    ∀ n x, x ∈ (cs.foldl Inclusion.enforce state).1.of n → P n x := by
  induction cs generalizing state with
  | nil => exact h
  | cons c cs ih =>
    refine ih (fun c hc => hconstants c (List.mem_cons_of_mem _ hc))
      (fun c hc => hsources c (List.mem_cons_of_mem _ hc)) ?_
    intro n x hx
    rcases Inclusion.mem_enforce hx with hold | ⟨rfl, hnew⟩
    · exact h n x hold
    · rcases Inclusion.mem_value.1 hnew with hc | ⟨m, hm, hc⟩
      · exact hconstants c List.mem_cons_self x hc
      · exact hsources c List.mem_cons_self m hm x (h m x hc)

/-- **What holds of the given members and is kept by every inclusion holds of
all members after solving.** -/
theorem solve_induction {k : Nat} {f : Family} (h : ∀ n x, x ∈ f.of n → P n x) :
    ∀ n x, x ∈ (solve cs k f).1.of n → P n x := by
  induction k generalizing f with
  | zero => exact h
  | succ k ih =>
    have hp : ∀ n x, x ∈ (pass cs f).1.of n → P n x :=
      foldl_enforce_induction hconstants hsources h
    simp only [solve]
    split
    · exact hp
    · exact ih hp

end

/-! ### When a pass adds nothing -/

/-- An inclusion that leaves the log blank has changed nothing. -/
theorem Inclusion.enforce_of_isBlank {state : Family × PassLog} {c : Inclusion}
    (h : (c.enforce state).2.isBlank = true) : c.enforce state = state ∧ c.Holds state.1 := by
  rcases c.enforce_cases state with ⟨hm, he⟩ | ⟨hm, he⟩
  · exact ⟨he, Inclusion.holds_iff_missing_eq_nil.2 hm⟩
  · -- What was added stands in the log under the target.
    have hmem := OrderedMap.mem_of_get? (OrderedMap.get?_put_self c.target
      ((OrderedMap.get? c.target state.2).getD [] ++ c.missing state.1) state.2)
    rw [he, PassLog.isBlank, List.all_eq_true] at h
    have := h _ hmem
    simp [hm] at this

theorem foldl_enforce_of_isBlank {state : Family × PassLog}
    (h : (cs.foldl Inclusion.enforce state).2.isBlank = true) :
    cs.foldl Inclusion.enforce state = state ∧ ∀ c ∈ cs, c.Holds state.1 := by
  induction cs generalizing state with
  | nil => exact ⟨rfl, by simp⟩
  | cons c cs ih =>
    rw [List.foldl_cons] at h ⊢
    obtain ⟨hrest, hholds⟩ := ih h
    rw [hrest] at h ⊢
    obtain ⟨hc, hch⟩ := Inclusion.enforce_of_isBlank h
    rw [hc] at hholds ⊢
    exact ⟨rfl, List.forall_mem_cons.2 ⟨hch, hholds⟩⟩

/-- A pass that adds something adds a name to a target that did not have
it. -/
theorem exists_added_of_not_isBlank {state : Family × PassLog} (hb : state.2.isBlank = true)
    (h : (cs.foldl Inclusion.enforce state).2.isBlank = false) :
    ∃ c ∈ cs, ∃ x ∈ c.value state.1, x ∉ state.1.of c.target ∧
      x ∈ (cs.foldl Inclusion.enforce state).1.of c.target := by
  induction cs generalizing state with
  | nil => simp [hb] at h
  | cons c cs ih =>
    rw [List.foldl_cons] at h ⊢
    rcases c.enforce_cases state with ⟨-, he⟩ | ⟨hm, he⟩
    · rw [he] at h ⊢
      obtain ⟨d, hd, hx⟩ := ih hb h
      exact ⟨d, List.mem_cons_of_mem _ hd, hx⟩
    · obtain ⟨x, hx⟩ := List.exists_mem_of_ne_nil _ hm
      have hadded : x ∈ (c.enforce state).1.of c.target := by
        rw [he]
        simp [hx]
      rw [Inclusion.missing, SymbolSet.mem_difference] at hx
      exact ⟨c, List.mem_cons_self, x, hx.1, hx.2, le_foldl_enforce cs _ _ _ hadded⟩

/-! ### The passes suffice -/

/-- The pairs of a target and one of its members. -/
def filled (cs : List Inclusion) (names : List String) (f : Family) : Finset (String × String) :=
  ((cs.map Inclusion.target).toFinset ×ˢ names.toFinset).filter fun e => e.2 ∈ f.of e.1

theorem card_filled_le (cs : List Inclusion) (names : List String) (f : Family) :
    (filled cs names f).card ≤ cs.length * names.length := by
  calc (filled cs names f).card
      ≤ ((cs.map Inclusion.target).toFinset ×ˢ names.toFinset).card := Finset.card_filter_le _ _
    _ = (cs.map Inclusion.target).toFinset.card * names.toFinset.card := Finset.card_product _ _
    _ ≤ (cs.map Inclusion.target).length * names.length :=
      Nat.mul_le_mul (List.toFinset_card_le _) (List.toFinset_card_le _)
    _ = cs.length * names.length := by rw [List.length_map]

/-- A pass that is not the last fills one more pair. -/
theorem card_filled_lt {names : List String} {f : Family}
    (hnames : ∀ n x, x ∈ f.of n → x ∈ names)
    (hconstants : ∀ c ∈ cs, ∀ x ∈ c.constants, x ∈ names)
    (h : (pass cs f).2.isBlank = false) :
    (filled cs names f).card < (filled cs names (pass cs f).1).card := by
  obtain ⟨c, hc, x, hx, hnot, hnew⟩ := exists_added_of_not_isBlank (PassLog.isBlank_blank f) h
  have hxn : x ∈ names := by
    rcases Inclusion.mem_value.1 hx with hx | ⟨m, -, hx⟩
    · exact hconstants c hc x hx
    · exact hnames m x hx
  apply Finset.card_lt_card
  rw [Finset.ssubset_iff_of_subset]
  · refine ⟨(c.target, x), ?_, ?_⟩
    · simp only [filled, Finset.mem_filter, Finset.mem_product, List.mem_toFinset]
      exact ⟨⟨List.mem_map_of_mem hc, hxn⟩, hnew⟩
    · simp only [filled, Finset.mem_filter, not_and]
      exact fun _ => hnot
  · intro e he
    simp only [filled, Finset.mem_filter] at he ⊢
    exact ⟨he.1, le_foldl_enforce cs _ _ _ he.2⟩

/-- Passes repeated from a family until one adds nothing: the family that is
left then, and the logs of the passes before, each of which added something. -/
inductive Settles (cs : List Inclusion) : Family → Family → List PassLog → Prop where
  | done {f : Family} (h : (pass cs f).2.isBlank = true) : Settles cs f (pass cs f).1 []
  | next {f last : Family} {logs : List PassLog} (h : (pass cs f).2.isBlank = false)
      (hs : Settles cs (pass cs f).1 last logs) : Settles cs f last ((pass cs f).2 :: logs)

/-- A pass without additions finds every inclusion true. -/
theorem Settles.holds {f last : Family} {logs : List PassLog} (h : Settles cs f last logs) :
    ∀ c ∈ cs, c.Holds last := by
  induction h with
  | done h =>
    obtain ⟨he, hholds⟩ := foldl_enforce_of_isBlank h
    rw [pass, he]
    exact hholds
  | next _ _ ih => exact ih

theorem settles_solve (names : List String) {k : Nat} {f : Family}
    (hnames : ∀ n x, x ∈ f.of n → x ∈ names)
    (hconstants : ∀ c ∈ cs, ∀ x ∈ c.constants, x ∈ names)
    (hk : cs.length * names.length < (filled cs names f).card + k) :
    Settles cs f (solve cs k f).1 (solve cs k f).2 := by
  induction k generalizing f with
  | zero =>
    have hle := card_filled_le cs names f
    -- No pass is left, but then more would be filled than there is room for.
    omega
  | succ k ih =>
    simp only [solve]
    split
    · next hb => exact .done hb
    · next hb =>
      -- A pass with an addition fills more, so one pass fewer is enough.
      have hlt := card_filled_lt hnames hconstants (by simpa using hb)
      have hpass : ∀ n x, x ∈ (pass cs f).1.of n → x ∈ names :=
        foldl_enforce_induction (P := fun _ x => x ∈ names) hconstants
          (fun _ _ _ _ _ hx => hx) hnames
      exact .next (by simpa using hb) (ih hpass (by omega))

/-- **The passes come to an end**: the solution is what they leave when they
are repeated until one adds nothing. -/
theorem settles_solution (cs : List Inclusion) (f : Family) :
    Settles cs f (solution cs f).1 (solution cs f).2 := by
  unfold solution room
  refine settles_solve (cs.flatMap Inclusion.constants ++ f.flatMap (·.2)) ?_ ?_ ?_
  · exact fun n x hx => List.mem_append_right _ (Family.mem_flatMap_of_mem hx)
  · exact fun c hc x hx => List.mem_append_left _ (List.mem_flatMap.2 ⟨c, hc, hx⟩)
  · dsimp only
    omega

/-- **Every inclusion holds of the solution.** -/
theorem holds_solution (cs : List Inclusion) (f : Family) :
    ∀ c ∈ cs, c.Holds (solution cs f).1 :=
  (settles_solution cs f).holds

end PredictiveParsing
