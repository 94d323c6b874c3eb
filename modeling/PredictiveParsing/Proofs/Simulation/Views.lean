import PredictiveParsing.Proofs.ParseTree.Pending
import PredictiveParsing.Proofs.Simulation.Leftmost

/-
The two views of a run agree.

The derivation rewrites a list of names, the parse tree expands one of the
places it keeps beside it.  Both look for the first place where the antecedent
stands, and where there is none, after an error function say, both pass the
production over.

* `replaceFirst` — a list with the first occurrence of a name replaced;
* `filter_replaceFirst` — it does not matter if `ε` is dropped before or after;
* `getLast?_formsFrom_cons` — a form is followed by the one in which the
  antecedent is replaced;
* `Draft.InOrder.leaves_apply` — so it is with the leaves of the tree;
* `Agrees.apply` — one production keeps tree and form together;
* `performAll_views` — they are together after any commands.

Design notes:

* The empty word is a leaf of the tree and nothing in a form.  So the two are
  compared without `ε`, which is no non-terminal and never replaced.
* Nothing is asked of the history but that its productions are those of the
  grammar.  That is why recoveries make no difference.
-/
namespace PredictiveParsing

/-- The list with the first occurrence of a name replaced; without one it stays
as it is. -/
def replaceFirst (n : String) (replacement : List String) : List String → List String
  | [] => []
  | m :: ms => if m = n then replacement ++ ms else m :: replaceFirst n replacement ms

section

variable {n : String} {replacement names ms : List String}

/-! ### Replacing the first occurrence -/

theorem replaceFirst_of_notMem (h : n ∉ names) : replaceFirst n replacement names = names := by
  induction names with
  | nil => rfl
  | cons m names ih =>
    rw [List.mem_cons, not_or] at h
    rw [replaceFirst, if_neg (Ne.symm h.1), ih h.2]

theorem replaceFirst_append_of_notMem (h : n ∉ names) :
    replaceFirst n replacement (names ++ ms) = names ++ replaceFirst n replacement ms := by
  induction names with
  | nil => rfl
  | cons m names ih =>
    rw [List.mem_cons, not_or] at h
    rw [List.cons_append, replaceFirst, if_neg (Ne.symm h.1), ih h.2, List.cons_append]

/-- Names other than the one that is replaced may be dropped before or
after. -/
theorem filter_replaceFirst {keep : String → Bool} (hn : keep n = true) :
    (replaceFirst n replacement names).filter keep =
      replaceFirst n (replacement.filter keep) (names.filter keep) := by
  induction names with
  | nil => rfl
  | cons m names ih =>
    rw [replaceFirst]
    by_cases hm : m = n
    · rw [if_pos hm, List.filter_append, List.filter_cons_of_pos (hm ▸ hn), replaceFirst, if_pos hm]
    · rw [if_neg hm]
      by_cases hk : keep m = true
      · rw [List.filter_cons_of_pos hk, List.filter_cons_of_pos hk, replaceFirst, if_neg hm, ih]
      · rw [List.filter_cons_of_neg hk, List.filter_cons_of_neg hk, ih]

/-- A production is applied where its antecedent occurs first, or nowhere. -/
theorem replaceFirst_eq_site (g : Grammar) : replaceFirst n replacement names =
    match site g n names with
    | none => names
    | some i => replaceAt i replacement names := by
  rw [site_eq_idxOf?]
  induction names with
  | nil => rfl
  | cons m names ih =>
    rw [replaceFirst, List.idxOf?_cons]
    by_cases hm : m = n
    · simp [hm, replaceAt]
    · have hm' : (m == n) = false := by simpa using hm
      rw [if_neg hm, hm', ih]
      cases names.idxOf? n with
      | none => rfl
      | some i => simp [replaceAt]

end

namespace Simulation

/-- The forms that follow come from the form in which the antecedent is
replaced. -/
theorem getLast?_formsFrom_cons (g : Grammar) (form : List String) (p : Production)
    (ps : List Production) :
    (form :: formsFrom g form (p :: ps)).getLast? =
      (replaceFirst p.antecedent (p.yield.map Symbol.name) form ::
        formsFrom g (replaceFirst p.antecedent (p.yield.map Symbol.name) form) ps).getLast? := by
  rw [replaceFirst_eq_site g, formsFrom]
  cases site g p.antecedent form with
  | none => rfl
  | some i => exact List.getLast?_cons_cons

end Simulation

/-! ### Tree and form side by side -/

namespace Draft

variable {g : Grammar} {d : Draft} {p : Production}

theorem leaves_eq_map_symbol (d : Draft) :
    d.tree.leaves = (d.tree.leafPlaces []).map ParseTree.Place.symbol :=
  (ParseTree.map_symbol_leafPlaces d.tree []).symm

/-- In the leaves of a draft the first occurrence of the antecedent is
replaced. -/
theorem InOrder.leaves_apply (h : d.InOrder g) (hn : p.antecedent ∈ g.nonTerminals) :
    (d.apply g p).tree.leaves = replaceFirst p.antecedent p.names d.tree.leaves := by
  -- A leaf with the antecedent's name is a non-terminal and so is open.
  have hopen : ∀ {r : ParseTree.Place}, r.symbol = p.antecedent → isOpen g r = true := by
    intro r hr
    simp [isOpen, hr, Grammar.isNonTerminal, hn]
  rw [leaves_eq_map_symbol, leaves_eq_map_symbol]
  rcases h.apply_cases p with ⟨hnone, he⟩ | ⟨before, q, behind, hx⟩
  · rw [he, replaceFirst_of_notMem]
    intro hmem
    obtain ⟨r, hr, hs⟩ := List.mem_map.1 hmem
    exact hnone r hr (hopen hs) hs
  · have hbefore : p.antecedent ∉ before.map ParseTree.Place.symbol := by
      intro hmem
      obtain ⟨r, hr, hs⟩ := List.mem_map.1 hmem
      exact hx.symbol_ne r hr (hopen hs) hs
    rw [hx.leafPlaces_eq, hx.places_eq, List.map_append, List.map_append,
      ParseTree.map_symbol_childPlaces, List.map_append, replaceFirst_append_of_notMem hbefore,
      List.map_cons, hx.symbol_eq, replaceFirst, if_pos rfl, List.append_assoc]

end Draft

/-- Draft and form have the same names apart from `ε`, and every branch of the
draft is a production. -/
structure Agrees (g : Grammar) (d : Draft) (form : List String) : Prop where
  inOrder : d.InOrder g
  licensed : d.tree.Licensed g.productions
  filter_eq : d.tree.leaves.filter (· ≠ epsilonName) = form.filter (· ≠ epsilonName)

section

variable {g : Grammar} {p : Production} {d : Draft} {form : List String}

/-- **A production keeps tree and form together**: it is applied to both at the
same occurrence of its antecedent, or to neither. -/
theorem Agrees.apply (h : Agrees g d form) (hp : p ∈ g.productions)
    (hn : p.antecedent ∈ g.nonTerminals) (hε : p.antecedent ≠ epsilonName) :
    Agrees g (d.apply g p) (replaceFirst p.antecedent (p.yield.map Symbol.name) form) := by
  refine ⟨h.inOrder.apply p, h.inOrder.licensed_apply hp h.licensed, ?_⟩
  -- Without `ε`, what replaces the antecedent in a form are the children in the tree.
  have hkeep : decide (p.antecedent ≠ epsilonName) = true := by simpa using hε
  rw [h.inOrder.leaves_apply hn, filter_replaceFirst hkeep, filter_replaceFirst hkeep, h.filter_eq,
    p.filter_yield, Production.word]

/-- Productions, one after the other, keep the tree together with the last
form. -/
theorem Agrees.foldl_apply {ps : List Production} (h : Agrees g d form)
    (hps : ∀ p ∈ ps, p ∈ g.productions ∧ p.antecedent ∈ g.nonTerminals)
    (hε : epsilonName ∉ g.nonTerminals) :
    ∃ last, (form :: Simulation.formsFrom g form ps).getLast? = some last ∧
      Agrees g (ps.foldl (Draft.apply g) d) last := by
  induction ps generalizing d form with
  | nil => exact ⟨form, rfl, h⟩
  | cons p ps ih =>
    obtain ⟨⟨hp, hn⟩, hps⟩ := List.forall_mem_cons.1 hps
    rw [Simulation.getLast?_formsFrom_cons, List.foldl_cons]
    exact ih (h.apply hp hn fun he => hε (he ▸ hn)) hps

end

namespace Simulation

/-- **The two views of a run agree.**  Take a machine with a built table, any
error functions and any commands.  Apart from `ε`, the leaves of its parse tree
are, in order, the names of its last form, which is the last one displayed; and
every inner node of the tree with its children is a production of the
grammar. -/
theorem performAll_views {g : Grammar} (hg : g.Named) {functions : List ErrorFunction}
    {cells : ErrorCells} {tokens : List String} {s₀ s : Simulation}
    (hstart : start (g.buildTable functions cells).2 (g.buildTable functions cells).1 tokens =
      .ok s₀)
    {commands : List Command} (h : s₀.performAll commands = some s) :
    ∃ form, s.forms.getLast? = some form ∧
      s.derivation.getLast? = some (formText form) ∧
      s.parseTree.leaves.filter (· ≠ epsilonName) = form.filter (· ≠ epsilonName) ∧
      s.parseTree.Licensed g.productions := by
  obtain ⟨hnts, hps, -⟩ := Grammar.buildTable_frame g functions cells
  rw [← (performAll_fields hstart h).1] at hnts hps
  have happlied : ∀ p ∈ s.applied,
      p ∈ s.grammar.productions ∧ p.antecedent ∈ s.grammar.nonTerminals := by
    intro p hp
    rw [hps, hnts]
    exact mem_of_mem_applied hstart h hp
  have hbegin : Agrees s.grammar (.root s.startName) [s.startName] :=
    ⟨Draft.inOrder_root _ _, .leaf _, rfl⟩
  obtain ⟨form, hlast, hagrees⟩ :=
    hbegin.foldl_apply happlied (hnts ▸ hg.nonTerminals.epsilonName_notMem)
  refine ⟨form, hlast, ?_, hagrees.filter_eq, hps ▸ hagrees.licensed⟩
  rw [derivation, List.getLast?_map, forms, hlast]
  rfl

/-- A function puts one non-terminal in the place of another, so the second
`B → b` has nothing to be applied to in either view. -/
theorem performAll_views_swap :
    let items : List ProductionItem :=
      [.sides ⟨"S", ["a", "A", "B"]⟩, .sides ⟨"A", ["c"]⟩, .sides ⟨"B", ["b"]⟩]
    let g : Grammar :=
      { nonTerminals := ["S", "A", "B"], terminals := ["a", "b", "c"], start := some "S"
        productions := [⟨"S", .terminal "a", [.nonTerminal "A", .nonTerminal "B"]⟩,
          ⟨"A", .terminal "c", []⟩, ⟨"B", .terminal "b", []⟩] }
    let functions : List ErrorFunction := [⟨"swap", .modifyStack, some "B", none⟩]
    let cells : ErrorCells := [(("A", "b"), "swap")]
    let commands : List Command := [.run (some 4), .stepBack, .rewind, .step, .run (some 9)]
    Grammar.build "" "" ["S", "A", "B"] ["a", "b", "c"] items (some "S") = .ok g ∧
    ∃ s₀ s, start (g.buildTable functions cells).2 (g.buildTable functions cells).1
        ["a", "b", "b"] = .ok s₀ ∧
      s₀.performAll commands = some s ∧ s.status = .accepted ∧ s.applied.length = 3 ∧
      s.derivation = ["S", "a A B", "a A b"] ∧
      s.parseTree.leaves.filter (· ≠ epsilonName) = ["a", "A", "b"] ∧
      s.parseTree.Licensed g.productions := by
  intro items g functions cells commands
  have hbuild : Grammar.build "" "" ["S", "A", "B"] ["a", "b", "c"] items (some "S") = .ok g := rfl
  have hg : g.Reachable := .build hbuild
  have hstart := Eq.refl (start (g.buildTable functions cells).2 (g.buildTable functions cells).1
    ["a", "b", "b"])
  obtain ⟨form, hlast, -, hleaves, hlicensed⟩ :=
    @performAll_views g hg.named functions cells ["a", "b", "b"] _ _ hstart commands rfl
  refine ⟨hbuild, _, _, hstart, rfl, by decide +kernel, by decide +kernel, by decide +kernel, ?_,
    hlicensed⟩
  -- The form is the last one of the derivation.
  obtain rfl : ["a", "A", "b"] = form :=
    Option.some.inj (Eq.trans (by decide +kernel) hlast)
  exact hleaves

end Simulation

end PredictiveParsing
