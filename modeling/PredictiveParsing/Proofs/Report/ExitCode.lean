import PredictiveParsing.Proofs.Document.Saving
import PredictiveParsing.Proofs.Rewriting.Collision
import PredictiveParsing.Proofs.Simulation.Replay
import PredictiveParsing.Report

/-
How the report on a grammar file ends.

Reading the file, checking, normalizing and analysing its grammar and starting
a run each have faults of their own.  Those of the first steps are printed and
end in an exit code; those of a token that is not admitted are handed back.

* `start_normalize` — a normalization keeps the start symbol;
* `analyze_cases` — everything the analysis of a valid grammar can do;
* `forM_admits`, `start_eq_error`, `exists_start_eq_ok` — a run is refused because
  of its first token that is barred, and starts if there is none;
* `printedExit`, `lookupExit`, `exit_ofArguments` — the exit of a report without
  what it prints;
* `Report.Outcome` — how a report ends, and why;
* `exit_ofArguments_iff` — reports end so, and in no other way.

Design notes:

* A report need not exist: without a ceiling a run may never end.  All
  statements are therefore about the exit of a report if there is one.
-/
namespace PredictiveParsing

namespace Grammar

variable {g : Grammar}

/-! ### Analysing a valid grammar -/

/-- A normalization keeps the start symbol. -/
theorem start_normalize (hg : g.Named) {policy : CollisionPolicy} {n : Normalization}
    (h : g.normalize policy = .ok n) : n.grammar.start = g.start := by
  have hadopt : ∀ names introduced sides (r : Grammar), r.Named ∧ r.start = g.start →
      (adopt names introduced sides r).2.Named ∧
        (adopt names introduced sides r).2.start = g.start := by
    rintro names introduced sides r ⟨hr, hstart⟩
    refine ⟨hr.adopt _ _ _, ?_⟩
    rcases adopt_cases hr names introduced sides with ⟨_, he⟩ | ⟨_, _, -, he, -, -, hkept, -⟩
    · rw [he]
      exact hstart
    · rw [he]
      exact hkept.trans hstart
  exact (normalize_induction hadopt (fun h => ⟨⟨h.1.nonTerminals, h.1.terminals⟩, h.2⟩) h
    ⟨hg, rfl⟩).2

/-- Everything the analysis of a valid grammar can do: fail because of a
collision, or find a table for a grammar with a start symbol. -/
theorem analyze_cases (hg : g.Named) (hvalid : Diagnostic.hasErrors g.problems = false) :
    (∃ m a, g.analyze true (.ok .refuse) [] [] = .error (.nameCollision m a)) ∨
      ∃ a t s, g.analyze true (.ok .refuse) [] [] = .ok a ∧ a.table = some t ∧
        a.grammar.start = some s := by
  have hwell : g.validate.2.WellFormed := wellFormed_iff.1 hvalid
  have hnamed : g.validate.2.Named := ⟨hg.nonTerminals, hg.terminals⟩
  have hanalyze : g.analyze true (.ok .refuse) [] [] =
      (g.validate.2.normalize .refuse).bind fun n => .ok
        { given := if n.changed then g.validate.2 else (n.grammar.solveAll [] []).2.2.2
          grammar := (n.grammar.solveAll [] []).2.2.2
          removedLeftRecursion := n.removedLeftRecursion
          leftFactored := n.leftFactored
          problems := g.problems
          first := (n.grammar.solveAll [] []).1
          follow := (n.grammar.solveAll [] []).2.1
          table := some (n.grammar.solveAll [] []).2.2.1 } := by
    rw [analyze]
    simp only [validate, hvalid]
    rfl
  rw [hanalyze]
  obtain ⟨n, -, hn | ⟨m, a, hn, -⟩⟩ := normalize_agree (closed_copy hnamed hwell)
  · obtain ⟨s, hs, -⟩ := hwell.start_mem
    have hstart : (n.grammar.solveAll [] []).2.2.2.start = some s := by
      have hframe := (buildTable_frame (n.grammar.computeFirst.2.computeFollow
        n.grammar.computeFirst.1).2 [] []).2.2
      exact hframe.trans ((start_normalize hnamed hn).trans hs)
    rw [hn]
    exact .inr ⟨_, _, s, rfl, rfl, hstart⟩
  · rw [hn]
    exact .inl ⟨m, a, rfl⟩

end Grammar

namespace Simulation

/-! ### Tokens that are not admitted -/

/-- The token may not stand in the input. -/
def isBarred (g : Grammar) (token : String) : Bool :=
  token ∈ reserved || g.isNonTerminal token

theorem admits_of_isBarred {g : Grammar} {token : String} (h : isBarred g token = true) :
    admits g token = .error (.reservedToken token) ∨
      admits g token = .error (.nonTerminalToken token) := by
  rw [admits]
  by_cases hr : token ∈ reserved
  · exact .inl (if_pos hr)
  · have hn : g.isNonTerminal token = true := by simpa [isBarred, hr] using h
    rw [if_neg hr, if_pos hn]
    exact .inr rfl

theorem admits_of_not_isBarred {g : Grammar} {token : String} (h : isBarred g token = false) :
    admits g token = .ok () := by
  rw [isBarred, Bool.or_eq_false_iff, decide_eq_false_iff_not] at h
  rw [admits, if_neg h.1, h.2]
  rfl

/-- Of several tokens, the first that is barred is reported. -/
theorem forM_admits (g : Grammar) (tokens : List String) : tokens.forM (admits g) =
    match tokens.find? (isBarred g) with
    | some token => admits g token
    | none => .ok () := by
  induction tokens with
  | nil => rfl
  | cons a as ih =>
    have hcons : (a :: as).forM (admits g) = admits g a >>= fun _ => as.forM (admits g) := rfl
    rw [hcons, List.find?_cons]
    cases ha : isBarred g a with
    | true =>
      show (admits g a >>= fun _ => as.forM (admits g)) = admits g a
      rcases admits_of_isBarred ha with he | he
      · rw [he]
        rfl
      · rw [he]
        rfl
    | false =>
      rw [admits_of_not_isBarred ha]
      exact ih

/-- A machine is refused for the first barred token. -/
theorem start_eq_error {g : Grammar} {s : String} (hs : g.start = some s) (t : Table)
    {tokens : List String} {token : String} {fault : Fault}
    (hfirst : (tokens.filter (· ≠ "")).find? (isBarred g) = some token)
    (h : admits g token = .error fault) : start g t tokens = .error fault := by
  have hforM : (tokens.filter (· ≠ "")).forM (admits g) = .error fault := by
    rw [forM_admits, hfirst]
    exact h
  rw [start, hs]
  dsimp only
  rw [hforM]
  rfl

theorem exists_start_eq_ok {g : Grammar} {s : String} (hs : g.start = some s) (t : Table)
    {tokens : List String} (hnone : (tokens.filter (· ≠ "")).find? (isBarred g) = none) :
    ∃ m, start g t tokens = .ok m := by
  have hforM : (tokens.filter (· ≠ "")).forM (admits g) = .ok () := by
    rw [forM_admits, hnone]
  rw [start, hs]
  dsimp only
  rw [hforM]
  exact ⟨_, rfl⟩

end Simulation

namespace Report

variable {tokens : List String}

/-! ### The parts of a report -/

/-- What is left of the end of a report when errors are printed. -/
def printedExit : Except Fault Nat → Except Fault Nat
  | .ok code => .ok code
  | .error fault => if isPrinted fault then .ok 1 else .error fault

theorem exit_withErrorPrinted (r : Report) : r.withErrorPrinted.exit = printedExit r.exit := by
  obtain ⟨lines, exit⟩ := r
  cases exit with
  | ok code => rfl
  | error fault =>
    show (if isPrinted fault then ending _ 1 else Report.mk lines (.error fault)).exit =
      if isPrinted fault then .ok 1 else .error fault
    split <;> rfl

/-- How the report on a run ends. -/
theorem exit_ofRun (g : Grammar) (t : Table) (tokens : List String) :
    (ofRun (.ok {}) g t tokens).map exit =
      match Simulation.start g t tokens with
      | .error fault => some (.error fault)
      | .ok s => s.runToEnd.map fun r => .ok (if r.isAccepted then 0 else 2) := by
  rw [ofRun]
  cases Simulation.start g t tokens with
  | error fault => rfl
  | ok s =>
    show ((s.run none).bind fun e =>
      some (ending (runLines e.2) (if e.2.isAccepted then 0 else 2))).map
      exit = s.runToEnd.map fun r => .ok (if r.isAccepted then 0 else 2)
    rw [Simulation.run]
    cases s.runToEnd with
    | none => rfl
    | some r => rfl

theorem exit_report (g : Grammar) (tokens : List String) :
    (g.report (.ok {}) tokens).map exit =
      match g.analyze true (.ok .refuse) [] [] with
      | .error fault => some (.error fault)
      | .ok a =>
        match a.table with
        | none => some (.ok 1)
        | some t => (ofRun (.ok {}) a.grammar t tokens).map exit := by
  have hpolicy : Settings.policyFor (.ok {}) none = .ok .refuse := rfl
  rw [Grammar.report, hpolicy]
  cases g.analyze true (.ok .refuse) [] [] with
  | error fault => rfl
  | ok a =>
    cases ht : a.table with
    | none => simp [ht, ending]
    | some t => simp [ht, ofAnalysis, after, Function.comp_def]

/-! ### The whole report -/

/-- The grammar of a file; its line ends are line feeds. -/
def fileGrammar (content : String) : Except Fault Grammar :=
  Grammar.load (.text (.ofList (Text.withLineFeeds content.toList)))

/-- The analysis and the table of the grammar of a file. -/
def Analyzes (content : String) (a : Analysis) (t : Table) : Prop :=
  ∃ g, fileGrammar content = .ok g ∧ g.analyze true (.ok .refuse) [] [] = .ok a ∧
    a.table = some t

/-- How the report on a file and some tokens ends, from what there is at the
path of the file. -/
inductive Outcome (path : String) (tokens : List String) :
    FileLookup → Except Fault Nat → Prop where
  /-- There is no file. -/
  | missing : Outcome path tokens .missing (.ok 1)
  /-- There is something that the system does not read. -/
  | inaccessible (issue : FileIssue) :
      Outcome path tokens (.unreadable issue) (.error (.unreadableFile issue path))
  /-- There is a file that is not a text. -/
  | undecodable (flaw : Text.Flaw) : Outcome path tokens (.undecodable flaw) (.error (.notText flaw))
  /-- The XML breaks a character. -/
  | broken {content : String} {bytes : List UInt8} {position : Nat}
      (h : fileGrammar content = .error (.brokenCharacter bytes position)) :
      Outcome path tokens (.text content) (.error (.brokenCharacter bytes position))
  /-- No document can be read from the file, or it is refused. -/
  | refused {content : String} {fault : Fault} (h : fileGrammar content = .error fault)
      (hf : fault.family = .document ∨ fault.family = .structure') :
      Outcome path tokens (.text content) (.ok 1)
  | invalid {content : String} {g : Grammar} (h : fileGrammar content = .ok g)
      (hg : Diagnostic.hasErrors g.problems = true) : Outcome path tokens (.text content) (.ok 1)
  /-- A new name clashes with a declared one. -/
  | collision {content : String} {g : Grammar} {name antecedent : String}
      (h : fileGrammar content = .ok g)
      (ha : g.analyze true (.ok .refuse) [] [] = .error (.nameCollision name antecedent)) :
      Outcome path tokens (.text content) (.ok 1)
  /-- A token is not admitted. -/
  | barred {content : String} {a : Analysis} {t : Table} {token : String} {fault : Fault}
      (h : Analyzes content a t)
      (hfirst : (tokens.filter (· ≠ "")).find? (Simulation.isBarred a.grammar) = some token)
      (hf : Simulation.admits a.grammar token = .error fault) :
      Outcome path tokens (.text content) (.error fault)
  /-- The run ends. -/
  | finished {content : String} {a : Analysis} {t : Table} {s r : Simulation}
      (h : Analyzes content a t) (hs : Simulation.start a.grammar t tokens = .ok s)
      (hr : s.runToEnd = some r) :
      Outcome path tokens (.text content) (.ok (if r.isAccepted then 0 else 2))

/-- The end of the report on a file, if there is a report. -/
def fileExit (content : String) (tokens : List String) : Option (Except Fault Nat) :=
  match fileGrammar content with
  | .error fault => some (printedExit (.error fault))
  | .ok g => ((g.report (.ok {}) tokens).map exit).map printedExit

/-- The end of the report on whatever there is at a path. -/
def lookupExit (path : String) (tokens : List String) : FileLookup → Option (Except Fault Nat)
  | .missing => some (.ok 1)
  | .unreadable issue => some (.error (.unreadableFile issue path))
  | .undecodable flaw => some (.error (.notText flaw))
  | .text content => fileExit content tokens

theorem exit_ofArguments (find : String → FileLookup) (path : String) (tokens : List String) :
    (ofArguments (.ok {}) find (path :: tokens)).map exit =
      lookupExit (normalizedPath path) tokens (find (normalizedPath path)) := by
  rw [ofArguments]
  cases find (normalizedPath path) with
  | missing => rfl
  | unreadable issue => rfl
  | undecodable flaw => rfl
  | text content =>
    dsimp only
    rw [lookupExit, fileExit, fileGrammar]
    cases Grammar.load (.text (.ofList (Text.withLineFeeds content.toList))) with
    | error fault => exact congrArg some (exit_withErrorPrinted ⟨[], .error fault⟩)
    | ok g =>
      simp only [Option.map_map]
      exact congrArg (Option.map · _) (funext exit_withErrorPrinted)

section

variable {content path : String}

/-- A file whose grammar is analysed: the report ends as the run does. -/
theorem fileExit_of_analyzes {a : Analysis} {t : Table} (h : Analyzes content a t) :
    fileExit content tokens = ((ofRun (.ok {}) a.grammar t tokens).map exit).map printedExit := by
  obtain ⟨g, hg, ha, ht⟩ := h
  rw [fileExit, hg]
  dsimp only
  rw [exit_report, ha]
  dsimp only
  rw [ht]

theorem named_of_fileGrammar {g : Grammar} (h : fileGrammar content = .ok g) : g.Named :=
  (Grammar.isStorable_of_load h).named

/-- Only a valid grammar has a table, so there is a start symbol. -/
theorem Analyzes.exists_start {a : Analysis} {t : Table} (h : Analyzes content a t) :
    ∃ s, a.grammar.start = some s := by
  obtain ⟨g, hg, ha, ht⟩ := h
  cases hvalid : Diagnostic.hasErrors g.problems with
  | true =>
    rw [Grammar.analyze_invalid hvalid] at ha
    cases ha
    cases ht
  | false =>
    rcases Grammar.analyze_cases (named_of_fileGrammar hg) hvalid with
      ⟨_, _, he⟩ | ⟨_, _, s, he, -, hs⟩
    · rw [he] at ha
      cases ha
    · rw [he] at ha
      cases ha
      exact ⟨s, hs⟩

/-- Faults of tokens are not printed. -/
theorem printedExit_of_admits {g : Grammar} {token : String} {fault : Fault}
    (h : Simulation.admits g token = .error fault) : printedExit (.error fault) = .error fault := by
  rw [Simulation.admits] at h
  split at h
  · cases h
    rfl
  · split at h
    · cases h
      rfl
    · cases h

theorem printedExit_of_family {fault : Fault}
    (h : fault.family = .document ∨ fault.family = .structure' ∨ fault.family = .collision) :
    printedExit (.error fault) = .ok 1 := by
  rw [printedExit.eq_2, isPrinted]
  rcases h with h | h | h <;> rw [h] <;> rfl

/-- A report that ends in some way ends as it is told. -/
theorem Outcome.lookupExit_eq {found : FileLookup} {e : Except Fault Nat}
    (h : Outcome path tokens found e) :
    lookupExit path tokens found = some e := by
  cases h with
  | missing => rfl
  | inaccessible issue => rfl
  | undecodable flaw => rfl
  | broken h =>
    rw [lookupExit, fileExit, h]
    rfl
  | refused h hf =>
    rw [lookupExit, fileExit, h]
    exact congrArg some (printedExit_of_family (hf.imp_right .inl))
  | invalid h hg =>
    rw [lookupExit, fileExit, h]
    dsimp only
    rw [exit_report_invalid hg]
    rfl
  | collision h ha =>
    rw [lookupExit, fileExit, h]
    dsimp only
    rw [exit_report, ha]
    rfl
  | @barred _ _ t _ _ h hfirst hf =>
    obtain ⟨s, hs⟩ := h.exists_start
    rw [lookupExit, fileExit_of_analyzes h, exit_ofRun, Simulation.start_eq_error hs t hfirst hf]
    exact congrArg some (printedExit_of_admits hf)
  | finished h hs hr =>
    rw [lookupExit, fileExit_of_analyzes h, exit_ofRun, hs]
    dsimp only
    rw [hr]
    rfl

/-- **Every report on a file ends in one of these ways.** -/
theorem exists_outcome (path content : String) (tokens : List String) :
    fileExit content tokens = none ∨ ∃ e, Outcome path tokens (.text content) e := by
  rcases Grammar.load_text_cases (.ofList (Text.withLineFeeds content.toList)) with
    ⟨broken, -, hload⟩ | ⟨fault, -, hload, hf⟩ | ⟨d, -, -, hload⟩ | ⟨g, hload⟩
  · exact .inr ⟨_, .broken hload⟩
  · exact .inr ⟨_, .refused hload (.inl hf)⟩
  · exact .inr ⟨_, .refused hload (.inr rfl)⟩
  · cases hvalid : Diagnostic.hasErrors g.problems with
    | true => exact .inr ⟨_, .invalid hload hvalid⟩
    | false =>
      rcases Grammar.analyze_cases (named_of_fileGrammar hload) hvalid with
        ⟨m, b, ha⟩ | ⟨a, t, s, ha, ht, hs⟩
      · exact .inr ⟨_, .collision hload ha⟩
      · have hanalyzes : Analyzes content a t := ⟨g, hload, ha, ht⟩
        cases hfirst : (tokens.filter (· ≠ "")).find? (Simulation.isBarred a.grammar) with
        | some token =>
          rcases Simulation.admits_of_isBarred (List.find?_some hfirst) with hf | hf
          · exact .inr ⟨_, .barred hanalyzes hfirst hf⟩
          · exact .inr ⟨_, .barred hanalyzes hfirst hf⟩
        | none =>
          obtain ⟨m, hm⟩ := Simulation.exists_start_eq_ok hs t hfirst
          cases hr : m.runToEnd with
          | some r => exact .inr ⟨_, .finished hanalyzes hm hr⟩
          | none =>
            left
            rw [fileExit_of_analyzes hanalyzes, exit_ofRun, hm]
            dsimp only
            rw [hr]
            rfl

theorem outcome_of_lookupExit {found : FileLookup} {e : Except Fault Nat}
    (h : lookupExit path tokens found = some e) : Outcome path tokens found e := by
  cases found with
  | missing =>
    cases h
    exact .missing
  | unreadable issue =>
    cases h
    exact .inaccessible issue
  | undecodable flaw =>
    cases h
    exact .undecodable flaw
  | text content =>
    -- The report ends in one way only.
    rcases exists_outcome path content tokens with hnone | ⟨e', he'⟩
    · rw [lookupExit, hnone] at h
      cases h
    · obtain rfl : e' = e := Option.some.inj (he'.lookupExit_eq.symm.trans h)
      exact he'

/-- The faults that get out of a report. -/
theorem Outcome.escapes {found : FileLookup} {fault : Fault}
    (h : Outcome path tokens found (.error fault)) :
    (∃ token ∈ tokens, fault = .reservedToken token ∨ fault = .nonTerminalToken token) ∨
      (∃ issue, found = .unreadable issue ∧ fault = .unreadableFile issue path) ∨
      (∃ flaw, found = .undecodable flaw ∧ fault = .notText flaw) ∨
      ∃ bytes position, fault = .brokenCharacter bytes position := by
  cases h with
  | inaccessible issue => exact .inr (.inl ⟨issue, rfl, rfl⟩)
  | undecodable flaw => exact .inr (.inr (.inl ⟨flaw, rfl, rfl⟩))
  | broken h => exact .inr (.inr (.inr ⟨_, _, rfl⟩))
  | barred h hfirst hf =>
    have hmem := (List.mem_filter.1 (List.mem_of_find?_eq_some hfirst)).1
    refine .inl ⟨_, hmem, ?_⟩
    exact (Simulation.admits_of_isBarred (List.find?_some hfirst)).imp
      (fun he => Except.error.inj (hf.symm.trans he)) fun he => Except.error.inj (hf.symm.trans he)

end

/-- **How a report on a grammar file ends.**  With the default settings and any
tokens, the exit code is 1 if there is no file, if its text cannot be read as a
grammar, or if the grammar is invalid or its names clash, 0 if the run accepts
and 2 if it rejects.  A fault gets out only if a token is barred, the first of
them being named, if the system does not read what is there, if the file is not
UTF-8, or if the XML breaks a character.  Whatever a lookup finds, a report on
it ends in one of these ways. -/
theorem exit_ofArguments_iff (find : String → FileLookup) (path : String) (tokens : List String) :
    (∀ e, (ofArguments (.ok {}) find (path :: tokens)).map exit = some e ↔
      Outcome (normalizedPath path) tokens (find (normalizedPath path)) e) ∧
    ∀ fault, (ofArguments (.ok {}) find (path :: tokens)).map exit = some (.error fault) →
      (∃ token ∈ tokens, fault = .reservedToken token ∨ fault = .nonTerminalToken token) ∨
      (∃ issue, find (normalizedPath path) = .unreadable issue ∧
        fault = .unreadableFile issue (normalizedPath path)) ∨
      (∃ flaw, find (normalizedPath path) = .undecodable flaw ∧ fault = .notText flaw) ∨
      ∃ bytes position, fault = .brokenCharacter bytes position := by
  have hiff : ∀ e, (ofArguments (.ok {}) find (path :: tokens)).map exit = some e ↔
      Outcome (normalizedPath path) tokens (find (normalizedPath path)) e := by
    intro e
    rw [exit_ofArguments]
    exact ⟨outcome_of_lookupExit, Outcome.lookupExit_eq⟩
  refine ⟨hiff, fun fault h => ?_⟩
  exact ((hiff _).1 h).escapes

/-- On the grammar `S → a`, a token that is reserved and one that is the
non-terminal end the report with a fault, not with an exit code. -/
theorem exists_fault_of_barred :
    let content := "<grammar><non-terminal><value>S</value></non-terminal><terminal>" ++
      "<value>a</value></terminal><init-symbol>S</init-symbol><rule><value>S→a</value></rule>" ++
      "</grammar>"
    let report := fun tokens => ofArguments (.ok {}) (fun _ => .text content) ("g.xml" :: tokens)
    (report ["$"]).map exit = some (.error (.reservedToken "$")) ∧
      (report ["a", "S"]).map exit = some (.error (.nonTerminalToken "S")) ∧
      ¬ ∃ code, (report ["$"]).map exit = some (.ok code) := by
  intro content report
  let g : Grammar := { nonTerminals := ["S"], terminals := ["a"], start := some "S"
                       productions := [⟨"S", .terminal "a", []⟩] }
  have hload : fileGrammar content = .ok g := by decide +kernel
  have hreport : ∀ tokens, (report tokens).map exit =
      ((g.report (.ok {}) tokens).map exit).map printedExit := by
    intro tokens
    rw [exit_ofArguments, lookupExit, fileExit, hload]
  have hreserved : (report ["$"]).map exit = some (.error (.reservedToken "$")) := by
    rw [hreport]
    decide +kernel
  refine ⟨hreserved, ?_, fun ⟨code, h⟩ => ?_⟩
  · rw [hreport]
    decide +kernel
  · rw [hreserved] at h
    cases h

end Report

end PredictiveParsing
