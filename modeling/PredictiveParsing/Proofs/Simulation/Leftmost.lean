import Mathlib.Data.List.Chain
import PredictiveParsing.Proofs.Grammar.Reachable
import PredictiveParsing.Proofs.Grammar.Validity
import PredictiveParsing.Proofs.Simulation.Replay
import PredictiveParsing.Proofs.Table.Cells
import PredictiveParsing.Simulation.Derivation

/-
The forms that a run displays are a leftmost derivation.

While no error function interferes, the machine and its derivation go hand in
hand: the last form is what was consumed, followed by the stack without the
end marker at its bottom.

* `Grammar.RewritesLeftmost` — one rewriting of the leftmost non-terminal;
* `Tracks` — what the forms have to do with the machine;
* `Tracks.step` — every step keeps it up;
* `performAll_tracks` — it holds after any commands, and an accepted input is
  the last form and is generated by the start symbol.

Design notes:

* The forms are built from the history alone.  `Tracks` says what they have in
  common with the stack, and that is why the search for a place to rewrite
  always finds the leftmost non-terminal.
* A table may have conflicts, and the sets it rests on may be outdated: all
  that counts is that its cells hold productions of the row.
-/
namespace PredictiveParsing

namespace Grammar

/-- One rewriting of the leftmost non-terminal; the consequent `ε` deletes
it. -/
def RewritesLeftmost (g : Grammar) (u v : List String) : Prop :=
  ∃ before behind, ∃ p ∈ g.productions, (∀ a ∈ before, a ∉ g.nonTerminals) ∧
    p.antecedent ∈ g.nonTerminals ∧ u = before ++ p.antecedent :: behind ∧
    v = before ++ p.yield.map Symbol.name ++ behind

variable {g : Grammar}

/-! ### Leftmost rewritings -/

theorem mem_names_of_mem_yield {p : Production} {n : String}
    (h : n ∈ p.yield.map Symbol.name) : n ∈ p.names := by
  rw [Production.yield] at h
  split at h
  · simp at h
  · exact h

/-- Without an `ε` in it, what replaces the antecedent is the word of the
production. -/
theorem word_eq_of_notMem_yield {p : Production}
    (h : epsilonName ∉ p.yield.map Symbol.name) : p.word = p.yield.map Symbol.name := by
  rw [← p.filter_yield]
  refine List.filter_eq_self.2 fun n hn => ?_
  have hne : n ≠ epsilonName := fun he => h (he ▸ hn)
  simpa using hne

/-- The end marker does not come in by a rewriting. -/
theorem RewritesLeftmost.endName_notMem (hw : g.WellFormed) (hn : g.Named) {u v : List String}
    (h : g.RewritesLeftmost u v) (hu : endName ∉ u) : endName ∉ v := by
  obtain ⟨before, behind, p, hp, -, -, rfl, rfl⟩ := h
  simp only [List.mem_append, List.mem_cons, not_or] at hu ⊢
  exact ⟨⟨hu.1, fun hm => hw.endName_notMem_names hn hp (mem_names_of_mem_yield hm)⟩, hu.2.2⟩

/-- Where no `ε` is left, a leftmost rewriting is a rewriting, and there was
none before. -/
theorem RewritesLeftmost.rewrites (hn : g.Named) {u v : List String}
    (h : g.RewritesLeftmost u v) (hv : epsilonName ∉ v) :
    epsilonName ∉ u ∧ g.Rewrites u v := by
  obtain ⟨before, behind, p, hp, -, hnt, rfl, rfl⟩ := h
  simp only [List.mem_append, not_or] at hv
  obtain ⟨⟨hbefore, hyield⟩, hbehind⟩ := hv
  refine ⟨?_, before, p.antecedent, p.word, behind, ⟨p, hp, rfl, rfl⟩, rfl, ?_⟩
  · simp only [List.mem_append, List.mem_cons, not_or]
    exact ⟨hbefore, fun he => hn.nonTerminals.ne_epsilonName hnt he.symm, hbehind⟩
  · rw [word_eq_of_notMem_yield hyield]

/-- A chain of leftmost rewritings to a form without `ε` is a derivation. -/
theorem derives_of_isChain (hn : g.Named) {u w : List String} {forms : List (List String)}
    (h : forms.IsChain g.RewritesLeftmost) (hhead : forms.head? = some u)
    (hlast : forms.getLast? = some w) (hw : epsilonName ∉ w) : g.Derives u w := by
  have hall := h.backwards_induction (fun v => epsilonName ∉ v ∧ g.Derives v w) _
    (fun x y hxy hy => by
      obtain ⟨hx, hr⟩ := hxy.rewrites hn hy.1
      exact ⟨hx, .head hr hy.2⟩)
    (fun hne => by
      rw [List.getLast?_eq_some_getLast hne] at hlast
      obtain rfl := Option.some.inj hlast
      exact ⟨hw, .refl⟩)
  exact (hall u (List.mem_of_head? hhead)).2

theorem endName_notMem_of_isChain (hw : g.WellFormed) (hn : g.Named) {u v : List String}
    {forms : List (List String)} (h : forms.IsChain g.RewritesLeftmost)
    (hhead : forms.head? = some u) (hu : endName ∉ u) (hv : v ∈ forms) : endName ∉ v := by
  refine h.induction (fun v => endName ∉ v) _ (fun x y hxy => hxy.endName_notMem hw hn) ?_ v hv
  intro hne
  rw [List.head?_eq_some_head hne] at hhead
  obtain rfl := Option.some.inj hhead
  exact hu

end Grammar

/-- A call of an error function is noted. -/
theorem Move.errorFunction_recover (f : ErrorFunction) (top : String) (below : List String)
    (ahead : String) (later : List String) :
    (recover f top below ahead later).errorFunction = some f := by
  rw [recover]
  cases f.action <;> dsimp only <;> split <;> rfl

theorem Move.production_recover (f : ErrorFunction) (top : String) (below : List String)
    (ahead : String) (later : List String) :
    (recover f top below ahead later).production = none := by
  rw [recover]
  cases f.action <;> dsimp only <;> split <;> rfl

/-- A move applies a production only if the table has it for a non-terminal. -/
theorem Move.get?_of_production_next {g : Grammar} {t : Table} {c : Configuration}
    {p : Production} (h : (next g t c).production = some p) :
    ∃ top ahead, top ∈ g.nonTerminals ∧ t.get? top ahead = some (.production p) := by
  rw [next] at h
  split at h
  · next top below ahead later _ _ =>
    rcases decide_cases g t top below ahead later with
      ⟨-, -, hd⟩ | ⟨_, hd⟩ | ⟨q, hn, he, hd⟩ | ⟨f, -, -, hd⟩ | ⟨-, -, -, hd⟩
    · rw [hd] at h
      cases h
    · rw [hd] at h
      cases h
    · rw [hd] at h
      obtain rfl := Option.some.inj h
      exact ⟨top, ahead, hn, he⟩
    · rw [hd, production_recover] at h
      cases h
    · rw [hd] at h
      cases h
  · cases h

namespace Simulation

/-! ### Forms that grow -/

/-- One more production adds one more form, if it has a site in the last
one. -/
theorem formsFrom_append_singleton {g : Grammar} {form last : List String}
    {ps : List Production} {p : Production} {i : Nat}
    (hlast : (form :: formsFrom g form ps).getLast? = some last)
    (hi : site g p.antecedent last = some i) :
    formsFrom g form (ps ++ [p]) =
      formsFrom g form ps ++ [replaceAt i (p.yield.map Symbol.name) last] := by
  induction ps generalizing form with
  | nil =>
    obtain rfl : form = last := by simpa [formsFrom] using hlast
    simp [formsFrom, hi]
  | cons q ps ih =>
    rw [List.cons_append, formsFrom, formsFrom]
    rw [formsFrom] at hlast
    split
    · next hq =>
      rw [hq] at hlast
      exact ih hlast
    · next j hq =>
      rw [hq, List.getLast?_cons_cons] at hlast
      dsimp only
      rw [ih hlast, List.cons_append]

/-- What a step takes over from the move. -/
theorem step_fields {s : Simulation} (hf : s.isFinished = false) {m : Move}
    (hm : Move.next s.grammar s.table s.current = m) :
    s.step.2.grammar = s.grammar ∧ s.step.2.current.stack = m.stack ∧
      s.step.2.current.input = m.input ∧ s.step.2.applied = s.applied ++ m.production.toList := by
  rw [step_of_not_isFinished hf, hm]
  refine ⟨rfl, rfl, rfl, ?_⟩
  simp only [applied, history, List.reverse_cons, List.filterMap_append]
  cases m.production <;> simp

/-! ### Machine and forms side by side -/

/-- The machine has consumed one part of its input and still has the other in
front of it; its forms are a leftmost derivation from the start symbol, one
form for each production applied, and lead to what was consumed followed by
the stack. -/
structure Tracks (g : Grammar) (start : String) (s : Simulation)
    (consumed rest stack : List String) : Prop where
  input_eq : s.current.input = rest ++ [endName]
  stack_eq : s.current.stack = stack ++ [endName]
  notMem_nonTerminals : ∀ a ∈ consumed, a ∉ g.nonTerminals
  head?_forms : s.forms.head? = some [start]
  length_forms : s.forms.length = s.applied.length + 1
  isChain_forms : s.forms.IsChain g.RewritesLeftmost
  getLast?_forms : s.forms.getLast? = some (consumed ++ stack)

/-- The cells of the machine's table hold productions of its grammar, each in
the row of its antecedent. -/
def Sound (s : Simulation) : Prop :=
  ∀ row column p, s.table.get? row column = some (.production p) →
    p ∈ s.grammar.productions ∧ p.antecedent = row

section

variable {start : String} {s t : Simulation} {consumed rest stack : List String}

/-- The forms of machines with one grammar that applied the same productions
are the same. -/
theorem forms_congr (hg : t.grammar = s.grammar) (ha : t.applied = s.applied) :
    t.forms = s.forms := by
  simp only [forms, startName, hg, ha]

theorem Tracks.congr {g : Grammar} (h : Tracks g start s consumed rest stack)
    {consumed' rest' stack' : List String} (hg : t.grammar = s.grammar)
    (ha : t.applied = s.applied) (hi : t.current.input = rest' ++ [endName])
    (hst : t.current.stack = stack' ++ [endName])
    (hc : ∀ a ∈ consumed', a ∉ g.nonTerminals) (he : consumed' ++ stack' = consumed ++ stack) :
    Tracks g start t consumed' rest' stack' := by
  have hf := forms_congr hg ha
  refine ⟨hi, hst, hc, ?_, ?_, ?_, ?_⟩
  · rw [hf]
    exact h.head?_forms
  · rw [hf, ha]
    exact h.length_forms
  · rw [hf]
    exact h.isChain_forms
  · rw [hf, he]
    exact h.getLast?_forms

/-- Only non-terminals and productions of the grammar count. -/
theorem Tracks.of_grammar {g g' : Grammar} (hn : g'.nonTerminals = g.nonTerminals)
    (hp : g'.productions = g.productions) (h : Tracks g' start s consumed rest stack) :
    Tracks g start s consumed rest stack := by
  have hr : g'.RewritesLeftmost = g.RewritesLeftmost := by
    unfold Grammar.RewritesLeftmost
    rw [hn, hp]
  exact ⟨h.input_eq, h.stack_eq, hn ▸ h.notMem_nonTerminals, h.head?_forms, h.length_forms,
    hr ▸ h.isChain_forms, h.getLast?_forms⟩

/-- An application of a production adds a form. -/
theorem Tracks.expand (h : Tracks s.grammar start s consumed rest stack) {p : Production}
    {below : List String} (hst : stack = p.antecedent :: below) (hp : p ∈ s.grammar.productions)
    (hn : p.antecedent ∈ s.grammar.nonTerminals) (hg : t.grammar = s.grammar)
    (ha : t.applied = s.applied ++ [p]) (hi : t.current.input = rest ++ [endName])
    (hst' : t.current.stack = p.yield.map Symbol.name ++ below ++ [endName]) :
    Tracks s.grammar start t consumed rest (p.yield.map Symbol.name ++ below) := by
  subst hst
  have hlast := h.getLast?_forms
  have hsite : site s.grammar p.antecedent (consumed ++ p.antecedent :: below) =
      some consumed.length := site_leftmost h.notMem_nonTerminals hn
  -- The search finds the antecedent on top of the stack, behind what was consumed.
  have hforms : t.forms = s.forms ++ [consumed ++ p.yield.map Symbol.name ++ below] := by
    have hadd := formsFrom_append_singleton hlast hsite
    rw [replaceAt_length] at hadd
    simp only [forms, startName, hg, ha] at hadd ⊢
    rw [hadd, List.cons_append]
  refine ⟨hi, hst', h.notMem_nonTerminals, ?_, ?_, ?_, ?_⟩
  · rw [hforms, List.head?_append, h.head?_forms]
    rfl
  · rw [hforms, ha, List.length_append, List.length_append, h.length_forms]
    rfl
  · rw [hforms]
    refine h.isChain_forms.append (List.isChain_singleton _) fun u hu v hv => ?_
    obtain rfl : consumed ++ p.antecedent :: below = u := by
      rw [hlast] at hu
      exact Option.some.inj hu
    obtain rfl : consumed ++ p.yield.map Symbol.name ++ below = v := by simpa using hv
    exact ⟨consumed, below, p, hp, h.notMem_nonTerminals, hn, rfl, rfl⟩
  · rw [hforms, List.getLast?_append]
    simp

/-- A match moves a name from the stack to what was consumed. -/
theorem Tracks.consume {g : Grammar} {a : String}
    (h : Tracks g start s consumed (a :: rest) (a :: stack)) (ha : a ∉ g.nonTerminals)
    (hg : t.grammar = s.grammar) (hp : t.applied = s.applied)
    (hi : t.current.input = rest ++ [endName]) (hst : t.current.stack = stack ++ [endName]) :
    Tracks g start t (consumed ++ [a]) rest stack := by
  refine h.congr hg hp hi hst (fun b hb => ?_) (by simp)
  rcases List.mem_append.1 hb with hb | hb
  · exact h.notMem_nonTerminals b hb
  · rw [List.mem_singleton.1 hb]
    exact ha

/-- Where nothing is applied, and stack and input stay, nothing changes. -/
theorem Tracks.keep {g : Grammar} (h : Tracks g start s consumed rest stack)
    (hg : t.grammar = s.grammar) (ha : t.applied = s.applied)
    (hi : t.current.input = s.current.input) (hst : t.current.stack = s.current.stack) :
    Tracks g start t consumed rest stack :=
  h.congr hg ha (hi.trans h.input_eq) (hst.trans h.stack_eq) h.notMem_nonTerminals rfl

/-- **Every step keeps machine and forms together**, unless it calls an error
function. -/
theorem Tracks.step (hsound : s.Sound) (hend : endName ∉ s.grammar.nonTerminals)
    (h : Tracks s.grammar start s consumed rest stack) (hf : s.isFinished = false)
    (hquiet : (Move.next s.grammar s.table s.current).errorFunction = none) :
    ∃ consumed' rest' stack', consumed' ++ rest' = consumed ++ rest ∧
      Tracks s.grammar start s.step.2 consumed' rest' stack' := by
  obtain ⟨top, below, hst⟩ : ∃ top below, stack ++ [endName] = top :: below :=
    List.exists_cons_of_ne_nil (by simp)
  obtain ⟨ahead, later, hin⟩ : ∃ ahead later, rest ++ [endName] = ahead :: later :=
    List.exists_cons_of_ne_nil (by simp)
  have hstack := h.stack_eq.trans hst
  have hinput := h.input_eq.trans hin
  have hnext : Move.next s.grammar s.table s.current =
      Move.decide s.grammar s.table top below ahead later := by
    rw [Move.next, hstack, hinput]
  rcases Move.decide_cases s.grammar s.table top below ahead later with
    ⟨-, -, hd⟩ | ⟨_, hd⟩ | ⟨p, hn, he, hd⟩ | ⟨f, -, -, hd⟩ | ⟨htop, hne, hn, hd⟩
  · obtain ⟨hg, hs, hi, ha⟩ := step_fields hf (hnext.trans hd)
    exact ⟨consumed, rest, stack, rfl,
      h.keep hg (by simpa using ha) (hi.trans hinput.symm) (hs.trans hstack.symm)⟩
  · obtain ⟨hg, hs, hi, ha⟩ := step_fields hf (hnext.trans hd)
    exact ⟨consumed, rest, stack, rfl,
      h.keep hg (by simpa using ha) (hi.trans hinput.symm) (hs.trans hstack.symm)⟩
  · -- A non-terminal is not the end marker, so it is on top of the stack proper.
    obtain ⟨hg, hs, hi, ha⟩ := step_fields hf (hnext.trans hd)
    obtain ⟨hp, rfl⟩ := hsound _ _ _ he
    cases stack with
    | nil =>
      have htop : endName = p.antecedent := (List.cons.inj hst).1
      exact absurd (htop ▸ hn) hend
    | cons a stack =>
      obtain ⟨rfl, hbelow⟩ : a = p.antecedent ∧ stack ++ [endName] = below := List.cons.inj hst
      refine ⟨consumed, rest, _, rfl, h.expand rfl hp hn hg ha (hi.trans hin.symm) ?_⟩
      rw [hs, List.append_assoc, hbelow]
  · -- A call of an error function is noted in the history.
    rw [hnext, hd, Move.errorFunction_recover] at hquiet
    cases hquiet
  · -- Neither end marker is matched.
    obtain ⟨hg, hs, hi, ha⟩ := step_fields hf (hnext.trans hd)
    cases stack with
    | nil => exact absurd (List.cons.inj hst).1.symm hne
    | cons a stack =>
      obtain ⟨rfl, hbelow⟩ : a = top ∧ stack ++ [endName] = below := List.cons.inj hst
      cases rest with
      | nil => exact absurd (htop.trans (List.cons.inj hin).1.symm) hne
      | cons b rest =>
        obtain ⟨hb, hlater⟩ : b = ahead ∧ rest ++ [endName] = later := List.cons.inj hin
        obtain rfl : a = b := htop.trans hb.symm
        exact ⟨consumed ++ [a], rest, stack, by simp,
          h.consume hn hg (by simpa using ha) (hi.trans hlater.symm) (hs.trans hbelow.symm)⟩

end

/-! ### Whole runs -/

/-- Before its first step a machine has the form that is its start symbol. -/
theorem tracks_of_start {g : Grammar} {t : Table} {tokens : List String} {s₀ : Simulation}
    (h : Simulation.start g t tokens = .ok s₀) :
    ∃ start, g.start = some start ∧ s₀.grammar = g ∧ s₀.table = t ∧
      Tracks g start s₀ [] (tokens.filter (· ≠ "")) [start] := by
  obtain ⟨start, hs, -, rfl⟩ := start_eq_ok h
  refine ⟨start, hs, rfl, rfl, rfl, rfl, by simp, ?_, rfl, ?_, ?_⟩
  · simp [forms, startName, hs]
  · simp only [forms, applied, history]
    exact List.isChain_singleton _
  · simp [forms, applied, history, formsFrom, startName, hs]

theorem records_subset_step (s : Simulation) : s.records ⊆ s.step.2.records := by
  cases h : s.isFinished with
  | true => rw [step_of_isFinished h]
            exact List.Subset.refl _
  | false =>
    rw [step_of_not_isFinished h]
    exact List.subset_cons_self _ _

/-- Only productions of the grammar are applied, and only to its
non-terminals. -/
theorem mem_of_mem_applied_stepped {s₀ : Simulation} (hsound : s₀.Sound)
    (hrecords : s₀.records = []) (n : Nat) : ∀ p ∈ (s₀.stepped n).applied,
      p ∈ s₀.grammar.productions ∧ p.antecedent ∈ s₀.grammar.nonTerminals := by
  induction n with
  | zero => simp [applied, history, hrecords]
  | succ n ih =>
    rw [stepped_succ]
    cases hf : (s₀.stepped n).isFinished with
    | true =>
      rw [step_of_isFinished hf]
      exact ih
    | false =>
      intro p hp
      rw [(step_fields hf rfl).2.2.2, List.mem_append, Option.mem_toList] at hp
      rcases hp with hp | hp
      · exact ih p hp
      · obtain ⟨hg, ht, -⟩ := stepped_frame n s₀
        obtain ⟨top, ahead, hn, he⟩ := Move.get?_of_production_next hp
        rw [hg] at hn
        rw [ht] at he
        obtain ⟨hmem, rfl⟩ := hsound _ _ _ he
        exact ⟨hmem, hn⟩

/-- Over a table without error functions no step calls one. -/
theorem quiet_stepped {s₀ : Simulation} (hrecords : s₀.records = [])
    (hplain : ∀ row column f, s₀.table.get? row column ≠ some (.errorFunction f)) (n : Nat) :
    ∀ r ∈ (s₀.stepped n).records, r.errorFunction = none := by
  induction n with
  | zero =>
    rw [stepped_zero, hrecords]
    simp
  | succ n ih =>
    rw [stepped_succ]
    cases hf : (s₀.stepped n).isFinished with
    | true =>
      rw [step_of_isFinished hf]
      exact ih
    | false =>
      rw [step_of_not_isFinished hf]
      refine List.forall_mem_cons.2 ⟨?_, ih⟩
      rw [(stepped_frame n s₀).2.1]
      rw [Move.next]
      split
      · next top below ahead later _ _ =>
        rcases Move.decide_cases (s₀.stepped n).grammar s₀.table top below ahead later with
          ⟨-, -, hd⟩ | ⟨_, hd⟩ | ⟨p, -, -, hd⟩ | ⟨f, -, he, -⟩ | ⟨-, -, -, hd⟩
        · rw [hd]
        · rw [hd]
        · rw [hd]
        · exact absurd he (hplain _ _ f)
        · rw [hd]
      · rfl

/-- Single steps without error functions keep machine and forms together. -/
theorem tracks_stepped {s₀ : Simulation} {start : String} {tokens : List String}
    (hsound : s₀.Sound) (hend : endName ∉ s₀.grammar.nonTerminals)
    (h₀ : Tracks s₀.grammar start s₀ [] tokens [start]) (n : Nat)
    (hquiet : ∀ r ∈ (s₀.stepped n).records, r.errorFunction = none) :
    ∃ consumed rest stack, consumed ++ rest = tokens ∧
      Tracks s₀.grammar start (s₀.stepped n) consumed rest stack := by
  induction n with
  | zero => exact ⟨[], tokens, [start], rfl, h₀⟩
  | succ n ih =>
    rw [stepped_succ] at hquiet ⊢
    obtain ⟨consumed, rest, stack, htokens, htracks⟩ :=
      ih fun r hr => hquiet r (records_subset_step _ hr)
    obtain ⟨hg, ht, -⟩ := stepped_frame n s₀
    cases hf : (s₀.stepped n).isFinished with
    | true =>
      rw [step_of_isFinished hf]
      exact ⟨consumed, rest, stack, htokens, htracks⟩
    | false =>
      rw [← hg] at htracks hend ⊢
      -- Grammar and table are those the machine was started with.
      have hsound' : (s₀.stepped n).Sound := by
        intro row column p hp
        rw [ht] at hp
        rw [hg]
        exact hsound row column p hp
      have hnone : (Move.next (s₀.stepped n).grammar (s₀.stepped n).table
          (s₀.stepped n).current).errorFunction = none := by
        rw [step_of_not_isFinished hf] at hquiet
        exact hquiet _ List.mem_cons_self
      obtain ⟨consumed', rest', stack', he, htracks'⟩ := htracks.step hsound' hend hf hnone
      exact ⟨consumed', rest', stack', he.trans htokens, htracks'⟩

/-- The machine accepts only where both end markers meet. -/
theorem next_of_accepted {g : Grammar} {t : Table} {c : Configuration}
    (h : (Move.next g t c).status = .accepted) :
    (Move.next g t c).stack.head? = some endName ∧ (Move.next g t c).input.head? = some endName := by
  unfold Move.next at h ⊢
  split at h
  · next top below ahead later _ _ =>
    rcases Move.decide_cases g t top below ahead later with
      ⟨rfl, rfl, hd⟩ | ⟨_, hd⟩ | ⟨p, -, -, hd⟩ | ⟨f, -, -, hd⟩ | ⟨-, -, -, hd⟩
    · rw [hd]
      exact ⟨rfl, rfl⟩
    · rw [hd] at h
      cases h
    · rw [hd] at h
      cases h
    · rw [hd] at h
      rw [Move.recover] at h
      split at h <;> try split at h
      all_goals cases h
    · rw [hd] at h
      cases h
  · cases h

theorem head?_of_accepted {s₀ : Simulation} (h₀ : s₀.status ≠ .accepted) (n : Nat)
    (h : (s₀.stepped n).status = .accepted) :
    (s₀.stepped n).current.stack.head? = some endName ∧
      (s₀.stepped n).current.input.head? = some endName := by
  induction n with
  | zero => exact absurd h h₀
  | succ n ih =>
    rw [stepped_succ] at h ⊢
    cases hf : (s₀.stepped n).isFinished with
    | true =>
      rw [step_of_isFinished hf] at h ⊢
      exact ih h
    | false =>
      rw [step_of_not_isFinished hf] at h ⊢
      exact next_of_accepted h

/-- A list with a marker behind it begins with the marker only if it is empty
or holds it. -/
theorem eq_nil_of_head? {names : List String} {n : String}
    (h : (names ++ [n]).head? = some n) (hn : n ∉ names) : names = [] := by
  cases names with
  | nil => rfl
  | cons a names =>
    obtain rfl : a = n := Option.some.inj h
    simp at hn

/-- In a well-formed grammar, the last form of an accepted run is its input,
which the start symbol generates. -/
theorem Tracks.accepted {g : Grammar} {start : String} {s : Simulation}
    {consumed rest stack : List String} (h : Tracks g start s consumed rest stack)
    (hw : g.WellFormed) (hn : g.Named) (hs : start ∈ g.nonTerminals)
    (htokens : ∀ a ∈ consumed ++ rest, a ∉ reserved ∧ a ∉ g.nonTerminals)
    (hstack : s.current.stack.head? = some endName)
    (hinput : s.current.input.head? = some endName) :
    s.forms.getLast? = some (consumed ++ rest) ∧ g.Generates start (consumed ++ rest) := by
  rw [h.stack_eq] at hstack
  rw [h.input_eq] at hinput
  have hrest : endName ∉ rest := fun hm =>
    (htokens endName (List.mem_append_right _ hm)).1 (by simp [reserved])
  have hmem : consumed ++ stack ∈ s.forms := List.mem_of_getLast? h.getLast?_forms
  have hform : endName ∉ consumed ++ stack :=
    Grammar.endName_notMem_of_isChain hw hn h.isChain_forms h.head?_forms
      (by simpa using fun he => hn.nonTerminals.ne_endName hs he.symm) hmem
  obtain rfl := eq_nil_of_head? hinput hrest
  obtain rfl := eq_nil_of_head? hstack fun hm => hform (List.mem_append_right _ hm)
  refine ⟨h.getLast?_forms, Grammar.derives_of_isChain hn h.isChain_forms h.head?_forms
    h.getLast?_forms ?_, fun a ha => (htokens a ha).2⟩
  exact fun he => (htokens _ he).1 (by simp [reserved])

/-- The tables that are built hold productions of the grammar, whatever sets
they rest on. -/
theorem sound_buildTable (g : Grammar) (functions : List ErrorFunction) (cells : ErrorCells)
    (row column : String) (p : Production)
    (h : (g.buildTable functions cells).1.get? row column = some (.production p)) :
    p ∈ g.productions ∧ p.antecedent = row := by
  rw [Grammar.production_buildTable_iff, Grammar.knownSets_eq] at h
  obtain ⟨q, hq, hs, he⟩ := Table.mem_of_get?_ofProductions h
  cases he
  exact ⟨hq, hs.1⟩

section

variable {g : Grammar} {functions : List ErrorFunction} {cells : ErrorCells}
  {tokens : List String} {s₀ : Simulation}
  (hstart : Simulation.start (g.buildTable functions cells).2 (g.buildTable functions cells).1
    tokens = .ok s₀)

include hstart

/-- A machine over a built table is sound. -/
theorem sound_of_start : s₀.Sound := by
  obtain ⟨_, -, hg₀, ht₀, -⟩ := tracks_of_start hstart
  intro row column p hp
  rw [ht₀] at hp
  rw [hg₀, (Grammar.buildTable_frame g functions cells).2.1]
  exact sound_buildTable g functions cells row column p hp

/-- Whatever the commands, only productions of the grammar are applied, and
only to its non-terminals. -/
theorem mem_of_mem_applied {s : Simulation} {commands : List Command}
    (h : s₀.performAll commands = some s) {p : Production} (hp : p ∈ s.applied) :
    p ∈ g.productions ∧ p.antecedent ∈ g.nonTerminals := by
  obtain ⟨-, -, hrecords⟩ := performAll_fields hstart h
  obtain ⟨_, -, hg₀, -, -⟩ := tracks_of_start hstart
  obtain ⟨hnts, hps, -⟩ := Grammar.buildTable_frame g functions cells
  rw [applied, history, hrecords] at hp
  have hmem := mem_of_mem_applied_stepped (sound_of_start hstart)
    (isFresh_of_start hstart).records_eq _ p hp
  rwa [hg₀, hps, hnts] at hmem

/-- Single steps over a built table. -/
theorem tracks_stepped_of_start (hn : g.Named) {n : Nat}
    (hquiet : ∀ r ∈ (s₀.stepped n).records, r.errorFunction = none) :
    ∃ start consumed rest stack, g.start = some start ∧
      tokens.filter (· ≠ "") = consumed ++ rest ∧
      Tracks g start (s₀.stepped n) consumed rest stack := by
  obtain ⟨start, hs, hg₀, ht₀, h₀⟩ := tracks_of_start hstart
  obtain ⟨hnts, hps, hstart_eq⟩ := Grammar.buildTable_frame g functions cells
  have hsound : s₀.Sound := sound_of_start hstart
  have hend : endName ∉ s₀.grammar.nonTerminals := by
    rw [hg₀, hnts]
    exact hn.nonTerminals.endName_notMem
  obtain ⟨consumed, rest, stack, htokens, htracks⟩ :=
    tracks_stepped hsound hend (hg₀.symm ▸ h₀) n hquiet
  rw [hg₀] at htracks
  exact ⟨start, consumed, rest, stack, hstart_eq ▸ hs, htokens.symm, htracks.of_grammar hnts hps⟩

/-- An input that single steps lead to accept is generated by the start
symbol of a well-formed grammar. -/
theorem generates_of_accepted (hw : g.WellFormed) (hn : g.Named) {start : String}
    (hs : g.start = some start) {n : Nat}
    (hquiet : ∀ r ∈ (s₀.stepped n).records, r.errorFunction = none)
    (haccepted : (s₀.stepped n).status = .accepted) :
    (s₀.stepped n).forms.getLast? = some (tokens.filter (· ≠ "")) ∧
      g.Generates start (tokens.filter (· ≠ "")) := by
  obtain ⟨start', consumed, rest, stack, hs', htokens, htracks⟩ :=
    tracks_stepped_of_start hstart hn hquiet
  obtain rfl : start = start' := Option.some.inj (hs.symm.trans hs')
  obtain ⟨_, -, hadmitted, -⟩ := start_eq_ok hstart
  obtain ⟨hstack, hinput⟩ :=
    head?_of_accepted (by rw [(isFresh_of_start hstart).status_eq]; simp) n haccepted
  obtain ⟨start', hs', hmem⟩ := hw.start_mem
  obtain rfl : start = start' := Option.some.inj (hs.symm.trans hs')
  rw [(Grammar.buildTable_frame g functions cells).1] at hadmitted
  rw [htokens] at hadmitted ⊢
  exact htracks.accepted hw hn hmem hadmitted hstack hinput

end

/-- **The forms are a leftmost derivation that tracks the machine.**  Take a
machine with a built table and any commands after which its history shows no
error function.  Its forms lead from the start symbol, by one rewriting of the
leftmost non-terminal for each production applied, to what was consumed
followed by the stack.  If the grammar is valid and the machine has accepted,
the last form is the whole input, and the start symbol generates it. -/
theorem performAll_tracks {g : Grammar} (hg : g.Reachable) {functions : List ErrorFunction}
    {cells : ErrorCells} {tokens : List String} {s₀ s : Simulation}
    (hstart : Simulation.start (g.buildTable functions cells).2 (g.buildTable functions cells).1
      tokens = .ok s₀)
    {commands : List Command} (h : s₀.performAll commands = some s)
    (hquiet : ∀ r ∈ s.history, r.errorFunction = none) :
    s.derivation = s.forms.map formText ∧
    ∃ start consumed rest stack, g.start = some start ∧
      tokens.filter (· ≠ "") = consumed ++ rest ∧ Tracks g start s consumed rest stack ∧
      (Diagnostic.hasErrors g.problems = false → s.status = .accepted →
        s.forms.getLast? = some (tokens.filter (· ≠ "")) ∧
          g.Generates start (tokens.filter (· ≠ ""))) := by
  have hn := hg.named
  have hfresh := isFresh_of_start hstart
  have hr := (replays_self hfresh).performAll hfresh h
  obtain ⟨hgrammar, hcurrent, hrecords, -⟩ := hr.fields_eq
  have happlied : s.applied = (s₀.stepped s.current.steps).applied :=
    congrArg (fun records => records.reverse.filterMap Record.production) hrecords
  have hquiet' : ∀ r ∈ (s₀.stepped s.current.steps).records, r.errorFunction = none := by
    simpa [history, hrecords] using hquiet
  obtain ⟨start, consumed, rest, stack, hs, htokens, htracks⟩ :=
    tracks_stepped_of_start hstart hn hquiet'
  refine ⟨rfl, start, consumed, rest, stack, hs, htokens, ?_, ?_⟩
  · refine htracks.congr hgrammar happlied ?_ ?_ htracks.notMem_nonTerminals rfl
    · rw [hcurrent]
      exact htracks.input_eq
    · rw [hcurrent]
      exact htracks.stack_eq
  · intro hvalid haccepted
    -- Only a machine that was taken back differs in its status, and that one is running.
    have hstatus : (s₀.stepped s.current.steps).status = .accepted := by
      rcases hr.status_eq with he | ⟨-, hrunning, -⟩
      · rw [← he, haccepted]
      · rw [hrunning] at haccepted
        cases haccepted
    rw [forms_congr hgrammar happlied]
    exact generates_of_accepted hstart (Grammar.wellFormed_iff.1 hvalid) hn hs hquiet' hstatus

/-- A run with an undo and a rewind over a table with a conflict, up to
acceptance. -/
theorem performAll_tracks_conflict :
    let items : List ProductionItem :=
      [.sides ⟨"S", ["a"]⟩, .sides ⟨"S", ["a", "S"]⟩, .sides ⟨"S", []⟩]
    let g : Grammar :=
      { nonTerminals := ["S"], terminals := ["a"], start := some "S"
        productions := [⟨"S", .terminal "a", []⟩, ⟨"S", .terminal "a", [.nonTerminal "S"]⟩,
          ⟨"S", .epsilon, []⟩] }
    let commands : List Command := [.run (some 2), .stepBack, .rewind, .step, .run (some 9)]
    Grammar.build "" "" ["S"] ["a"] items (some "S") = .ok g ∧
    (g.buildTable [] []).1.conflicts ≠ [] ∧
    ∃ s₀ s, Simulation.start (g.buildTable [] []).2 (g.buildTable [] []).1 ["a", "", "a"] = .ok s₀ ∧
      s₀.performAll commands = some s ∧ s.status = .accepted ∧
      s.derivation = ["S", "a S", "a a S", "a a"] ∧
      ∃ start consumed rest stack, g.start = some start ∧
        ["a", "", "a"].filter (· ≠ "") = consumed ++ rest ∧
        Tracks g start s consumed rest stack ∧ g.Generates start ["a", "a"] := by
  intro items g commands
  have hbuild : Grammar.build "" "" ["S"] ["a"] items (some "S") = .ok g := rfl
  refine ⟨hbuild, by decide +kernel, _, _, rfl, rfl, by decide +kernel, by decide +kernel, ?_⟩
  obtain ⟨-, start, consumed, rest, stack, hs, htokens, htracks, haccepted⟩ :=
    @performAll_tracks g (.build hbuild) [] [] ["a", "", "a"] _ _ rfl commands rfl
      (by decide +kernel)
  exact ⟨start, consumed, rest, stack, hs, htokens, htracks,
    (haccepted (by decide +kernel) (by decide +kernel)).2⟩

end Simulation

end PredictiveParsing
