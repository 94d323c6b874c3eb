import PredictiveParsing.Proofs.Simulation.Invariant
import PredictiveParsing.Proofs.Simulation.Leftmost

/-
What acceptance leaves over.

A machine accepts when an end marker is on top of the stack and another one in
front of the input.  Neither the tokens nor the productions of a valid grammar
hold the marker, but an error function may put one down anywhere, and then the
machine accepts with names left on the stack or in the input.

* `ErrorFunction.marksStack`, `ErrorFunction.marksInput` — the functions that
  put an end marker on the stack, or in the input;
* `count_next` — a move adds the markers of the function it calls, and takes
  none away;
* `Marked`, `marked_stepped` — besides the first ones there are as many markers
  as the history shows calls of such functions;
* `eq_singleton_iff_of_accepted` — nothing but end markers is left on acceptance
  exactly if no such function was called;
* `exists_accepted_unconsumed` — a machine that accepts with all of its input
  left.

Design notes:

* A marker that was put down stays.  It is never matched, since two of them
  make the machine accept, and only a non-terminal is ever replaced.  So the
  calls in the history count the markers exactly; an undo shortens the history
  together with the stack.
-/
namespace PredictiveParsing

namespace ErrorFunction

/-- Whether the function puts an end marker on the stack. -/
def marksStack (f : ErrorFunction) : Bool :=
  (f.action == .insertStack || f.action == .modifyStack) && f.symbolText == endName

/-- Whether the function puts an end marker in the input. -/
def marksInput (f : ErrorFunction) : Bool :=
  (f.action == .insertInput || f.action == .modifyInput) && f.symbolText == endName

end ErrorFunction

/-! ### The markers that a move adds -/

namespace Move

variable {g : Grammar} {t : Table} {top ahead : String} {below later : List String}

theorem count_stack_recover (f : ErrorFunction) (htop : top ≠ endName) :
    (recover f top below ahead later).stack.count endName =
      (top :: below).count endName + if f.marksStack then 1 else 0 := by
  have hstack : (top :: below).count endName = below.count endName := List.count_cons_of_ne htop
  cases ha : f.action with
  | terminateAnalysis => simp [recover, ErrorFunction.marksStack, ha]
  | deleteInput => by_cases h : ahead = endName <;> simp [recover, ErrorFunction.marksStack, ha, h]
  | insertInput => simp [recover, ErrorFunction.marksStack, ha]
  | modifyInput => by_cases h : ahead = endName <;> simp [recover, ErrorFunction.marksStack, ha, h]
  | insertStack => simp [recover, ErrorFunction.marksStack, ha, List.count_cons]
  | deleteStack => simp [recover, ErrorFunction.marksStack, ha, hstack]
  | modifyStack => simp [recover, ErrorFunction.marksStack, ha, hstack, List.count_cons]

theorem count_input_recover (f : ErrorFunction) :
    (recover f top below ahead later).input.count endName =
      (ahead :: later).count endName + if f.marksInput then 1 else 0 := by
  cases ha : f.action with
  | terminateAnalysis => simp [recover, ErrorFunction.marksInput, ha]
  | deleteInput => by_cases h : ahead = endName <;> simp [recover, ErrorFunction.marksInput, ha, h]
  | insertInput => simp [recover, ErrorFunction.marksInput, ha, List.count_cons]
  | modifyInput =>
    by_cases h : ahead = endName <;>
      simp [recover, ErrorFunction.marksInput, ha, h, List.count_cons]
  | insertStack => simp [recover, ErrorFunction.marksInput, ha]
  | deleteStack => simp [recover, ErrorFunction.marksInput, ha]
  | modifyStack => simp [recover, ErrorFunction.marksInput, ha]

/-- **A move adds the end markers of the function it calls, and takes none
away**, over a table in whose productions there is none. -/
theorem count_next (hend : endName ∉ g.nonTerminals)
    (hcells : ∀ row column p, t.get? row column = some (.production p) → endName ∉ p.names)
    (c : Configuration) :
    (next g t c).stack.count endName = c.stack.count endName +
        (if (next g t c).errorFunction.any ErrorFunction.marksStack then 1 else 0) ∧
      (next g t c).input.count endName = c.input.count endName +
        (if (next g t c).errorFunction.any ErrorFunction.marksInput then 1 else 0) := by
  rw [next]
  split
  · next top below ahead later hs hi =>
    rw [hs, hi]
    rcases decide_cases g t top below ahead later with
      ⟨-, -, hd⟩ | ⟨_, hd⟩ | ⟨p, hn, he, hd⟩ | ⟨f, hn, -, hd⟩ | ⟨heq, hne, -, hd⟩
    · simp [hd]
    · simp [hd]
    · -- The consequent that takes the place of the non-terminal holds no marker.
      have htop : top ≠ endName := fun h => hend (h ▸ hn)
      have hyield : (p.yield.map Symbol.name).count endName = 0 :=
        List.count_eq_zero.2 fun hm => hcells _ _ p he (Grammar.mem_names_of_mem_yield hm)
      simp [hd, List.count_append, hyield, List.count_cons_of_ne htop]
    · have htop : top ≠ endName := fun h => hend (h ▸ hn)
      simp only [hd, errorFunction_recover, Option.any_some]
      exact ⟨count_stack_recover f htop, count_input_recover f⟩
    · simp [hd, List.count_cons_of_ne hne, List.count_cons_of_ne (heq ▸ hne)]
  · simp

end Move

namespace Simulation

variable {s₀ s : Simulation}

/-- How many steps of the history called a function of the kind. -/
def calls (kind : ErrorFunction → Bool) (s : Simulation) : Nat :=
  s.records.countP fun r => r.errorFunction.any kind

theorem calls_eq_zero_iff {kind : ErrorFunction → Bool} : s.calls kind = 0 ↔
    ∀ r ∈ s.history, ∀ f, r.errorFunction = some f → kind f = false := by
  simp [calls, history, List.countP_eq_zero, Option.any_eq_true]

/-- Stack and input have one end marker each, and one more for each call of a
function that put one there. -/
structure Marked (s : Simulation) : Prop where
  stack : s.current.stack.count endName = s.calls ErrorFunction.marksStack + 1
  input : s.current.input.count endName = s.calls ErrorFunction.marksInput + 1

/-- **A step keeps count.** -/
theorem Marked.step (h : s.Marked) (hend : endName ∉ s.grammar.nonTerminals)
    (hcells : ∀ row column p, s.table.get? row column = some (.production p) →
      endName ∉ p.names) : s.step.2.Marked := by
  cases hf : s.isFinished with
  | true =>
    rw [step_of_isFinished hf]
    exact h
  | false =>
    obtain ⟨hstack, hinput⟩ := Move.count_next hend hcells s.current
    rw [step_of_not_isFinished hf]
    constructor
    · simp only [calls, List.countP_cons]
      rw [hstack, h.stack, calls]
      omega
    · simp only [calls, List.countP_cons]
      rw [hinput, h.input, calls]
      omega

theorem marked_stepped (h : s₀.Marked) (hend : endName ∉ s₀.grammar.nonTerminals)
    (hcells : ∀ row column p, s₀.table.get? row column = some (.production p) →
      endName ∉ p.names) (n : Nat) : (s₀.stepped n).Marked := by
  induction n with
  | zero => exact h
  | succ n ih =>
    obtain ⟨hg, ht, -⟩ := stepped_frame n s₀
    rw [stepped_succ]
    exact ih.step (by rwa [hg]) (by rwa [ht])

/-- A machine that does not start from the end marker has one on its stack and
one in its input. -/
theorem marked_of_start {g : Grammar} (hg : g.start ≠ some endName) {t : Table}
    {tokens : List String} (h : start g t tokens = .ok s) : s.Marked := by
  obtain ⟨n, hn, hadmitted, rfl⟩ := start_eq_ok h
  have hne : n ≠ endName := fun he => hg (he ▸ hn)
  have htokens : endName ∉ tokens.filter (· ≠ "") := fun hm =>
    (hadmitted _ hm).1 (by simp [reserved])
  constructor
  · simp [calls, hne]
  · simp only [calls, List.countP_nil, List.count_append, List.count_eq_zero.2 htokens]
    rfl

/-- Single steps over the table of a valid grammar keep count, since neither its
start symbol nor its productions bring a marker in. -/
theorem marked_stepped_of_start {g : Grammar} (hg : g.Named) (hw : g.WellFormed)
    {functions : List ErrorFunction} {cells : ErrorCells} {tokens : List String}
    (hstart : start (g.buildTable functions cells).2 (g.buildTable functions cells).1 tokens =
      .ok s₀) (n : Nat) : (s₀.stepped n).Marked := by
  obtain ⟨-, -, hg₀, ht₀, -⟩ := tracks_of_start hstart
  obtain ⟨hnts, -, hstart_eq⟩ := Grammar.buildTable_frame g functions cells
  have hbegin : (g.buildTable functions cells).2.start ≠ some endName := by
    obtain ⟨start, hs, hmem⟩ := hw.start_mem
    rw [hstart_eq, hs]
    exact fun he => hg.nonTerminals.ne_endName hmem (Option.some.inj he)
  have hend : endName ∉ s₀.grammar.nonTerminals := by
    rw [hg₀, hnts]
    exact hg.nonTerminals.endName_notMem
  refine marked_stepped (marked_of_start hbegin hstart) hend (fun row column p hp => ?_) n
  rw [ht₀] at hp
  exact hw.endName_notMem_names hg (sound_buildTable g functions cells row column p hp).1

/-! ### Acceptance -/

/-- A list that begins and ends with a name is that name alone exactly if it
holds it once. -/
theorem eq_singleton_iff_count {ns : List String} {n : String} (hhead : ns.head? = some n)
    (hlast : ns.getLast? = some n) : ns = [n] ↔ ns.count n = 1 := by
  obtain ⟨ms, rfl⟩ := List.head?_eq_some_iff.1 hhead
  rw [List.count_cons_self]
  cases ms with
  | nil => simp
  | cons m ms =>
    rw [List.getLast?_cons_cons] at hlast
    have hmem := List.count_pos_iff.2 (List.mem_of_getLast? hlast)
    constructor
    · intro h
      cases h
    · intro h
      omega

/-- Where both markers meet, nothing else is left exactly if no other marker
was put down. -/
theorem Marked.eq_singleton_iff (h : s.Marked) (hended : s.current.IsEnded)
    (hstack : s.current.stack.head? = some endName)
    (hinput : s.current.input.head? = some endName) :
    (s.current.stack = [endName] ↔ s.calls ErrorFunction.marksStack = 0) ∧
      (s.current.input = [endName] ↔ s.calls ErrorFunction.marksInput = 0) := by
  rw [eq_singleton_iff_count hstack hended.stack, eq_singleton_iff_count hinput hended.input,
    h.stack, h.input]
  omega

theorem Replays.accepted (h : Replays s₀ s) (ha : s.status = .accepted) :
    (s₀.stepped s.current.steps).status = .accepted := by
  rcases h.status_eq with he | ⟨-, hrunning, -⟩
  · rw [← he, ha]
  · rw [hrunning] at ha
    cases ha

/-- **What is left on acceptance.**  Take a valid grammar, any error functions
in any cells of its table and any commands after which the machine has
accepted.  There is nothing but the end marker on the stack exactly if no step
of the history called a function that puts a marker there, and nothing but the
end marker in the input exactly if no step called a function that puts one
there. -/
theorem eq_singleton_iff_of_accepted {g : Grammar} (hg : g.Named)
    (hvalid : Diagnostic.hasErrors g.problems = false) {functions : List ErrorFunction}
    {cells : ErrorCells} {tokens : List String}
    (hstart : start (g.buildTable functions cells).2 (g.buildTable functions cells).1 tokens =
      .ok s₀) {commands : List Command} (h : s₀.performAll commands = some s)
    (haccepted : s.status = .accepted) :
    (s.current.stack = [endName] ↔
        ∀ r ∈ s.history, ∀ f, r.errorFunction = some f → f.marksStack = false) ∧
      (s.current.input = [endName] ↔
        ∀ r ∈ s.history, ∀ f, r.errorFunction = some f → f.marksInput = false) := by
  have hfresh := isFresh_of_start hstart
  -- The machine stands where single steps have taken it.
  have hr := (replays_self hfresh).performAll hfresh h
  obtain ⟨-, hcurrent, hrecords, -⟩ := hr.fields_eq
  have hmarked := marked_stepped_of_start hg (Grammar.wellFormed_iff.1 hvalid) hstart
    s.current.steps
  have hintact := (intact_of_start (hg.apply (.buildTable functions cells)) hstart).stepped
    s.current.steps
  obtain ⟨hstack, hinput⟩ :=
    head?_of_accepted (by rw [hfresh.status_eq]; simp) _ (hr.accepted haccepted)
  obtain ⟨hs, hi⟩ := hmarked.eq_singleton_iff hintact.isEnded_current hstack hinput
  rw [← calls_eq_zero_iff, ← calls_eq_zero_iff, hcurrent, calls, calls, hrecords]
  exact ⟨hs, hi⟩

/-- One function puts a marker in the input, another one takes the start symbol
away: on acceptance the stack is used up, the input is not. -/
theorem eq_singleton_iff_of_accepted_mark :
    let items : List ProductionItem := [.sides ⟨"S", ["a", "b"]⟩]
    let g : Grammar :=
      { nonTerminals := ["S"], terminals := ["a", "b"], start := some "S"
        productions := [⟨"S", .terminal "a", [.terminal "b"]⟩] }
    let functions : List ErrorFunction :=
      [⟨"mark", .insertInput, some "$", none⟩, ⟨"drop", .deleteStack, none, none⟩]
    let cells : ErrorCells := [(("S", "b"), "mark"), (("S", "$"), "drop")]
    let commands : List Command := [.step, .stepBack, .run (some 5)]
    Grammar.build "" "" ["S"] ["a", "b"] items (some "S") = .ok g ∧
    Diagnostic.hasErrors g.problems = false ∧
    ∃ s₀ s, start (g.buildTable functions cells).2 (g.buildTable functions cells).1 ["b"] = .ok s₀ ∧
      s₀.performAll commands = some s ∧ s.status = .accepted ∧
      s.current.stack = [endName] ∧ s.current.input ≠ [endName] := by
  intro items g functions cells commands
  have hbuild : Grammar.build "" "" ["S"] ["a", "b"] items (some "S") = .ok g := rfl
  have hg : g.Reachable := .build hbuild
  have hvalid : Diagnostic.hasErrors g.problems = false := by decide +kernel
  have hstart := Eq.refl
    (start (g.buildTable functions cells).2 (g.buildTable functions cells).1 ["b"])
  obtain ⟨hstack, hinput⟩ := @eq_singleton_iff_of_accepted _ _ g hg.named hvalid functions cells ["b"] hstart
    commands rfl (by decide +kernel)
  refine ⟨hbuild, hvalid, _, _, hstart, rfl, by decide +kernel, hstack.2 ?_, fun h => ?_⟩
  · exact calls_eq_zero_iff.1 (by decide +kernel)
  · have hnone := calls_eq_zero_iff.2 (hinput.1 h)
    revert hnone
    decide +kernel

/-- With functions that put an end marker in the input and on the stack, a
machine accepts before it has consumed a single token. -/
theorem exists_accepted_unconsumed :
    ∃ (g : Grammar) (functions : List ErrorFunction) (cells : ErrorCells) (tokens : List String)
      (s₀ s : Simulation), g.Reachable ∧ Diagnostic.hasErrors g.problems = false ∧
      (g.buildTable functions cells).1.issues = [] ∧
      start (g.buildTable functions cells).2 (g.buildTable functions cells).1 tokens = .ok s₀ ∧
      s₀.performAll [.run (some 3)] = some s ∧ s.status = .accepted ∧
      s.current.stack = ["$", "S", "$"] ∧ s.current.input = ["$", "b", "a", "$"] := by
  let items : List ProductionItem := [.sides ⟨"S", ["a", "b"]⟩]
  let g : Grammar :=
    { nonTerminals := ["S"], terminals := ["a", "b"], start := some "S"
      productions := [⟨"S", .terminal "a", [.terminal "b"]⟩] }
  have hbuild : Grammar.build "" "" ["S"] ["a", "b"] items (some "S") = .ok g := rfl
  refine ⟨g, [⟨"E1", .insertInput, some "$", none⟩, ⟨"E2", .insertStack, some "$", none⟩],
    [(("S", "b"), "E1"), (("S", "$"), "E2")], ["b", "a"], _, _, .build hbuild, by decide +kernel,
    by decide +kernel, rfl, rfl, by decide +kernel, by decide +kernel, by decide +kernel⟩

end Simulation

end PredictiveParsing
