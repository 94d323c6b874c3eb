import Mathlib.Data.List.Induction
import PredictiveParsing.Proofs.Server.Answers
import PredictiveParsing.Proofs.Server.Standard

/-
Simulations do not disturb each other.

However requests are mixed, each live simulation is the one that was created
under its key after the commands that were given to it, and to it alone.  There
are never more of them than the limit allows, and none goes but on demand or as
the oldest one of a full store.

* `serve` — the store after requests;
* `CameFrom` — a simulation is what its requests have made of it;
* `Kept`, `Kept.step` — what is always true of the store, and that no request
  changes that;
* `CarriedOut` — a request has changed the store and got an answer;
* `serve_sessions` — the properties of the store after any requests;
* `serve_sessions_unsendable` — a request may fail and yet change the store.

Design notes:

* Names of simulations are taken to be distinct, and nothing else is asked of
  them.
* The number of a simulation is the count of simulations before it.  Its name
  stays the same when others are given up, and that is what tells which one is
  the oldest.
-/
namespace PredictiveParsing

namespace Server

/-- The store after requests, one after the other. -/
def serve (server : Server) (rs : List Request) (s : Sessions) : Sessions :=
  rs.foldl (fun s r => (server.handle r s).2) s

/-- The simulation is kept under its key because a request has created it, and
is what the commands to it since then, one after the other, have made of it. -/
def CameFrom (server : Server) (rs : List Request) (key : String) (sim : Simulation) : Prop :=
  ∃ before r after g t sim₀, rs = before ++ r :: after ∧ server.endpoint? r = some .create ∧
    server.created r.body = .ok (g, t, sim₀) ∧
    key = server.naming (server.serve before {}).created ∧
    sim₀.performAll (after.filterMap (server.commandTo key)) = some sim

section

variable {server : Server} {rs : List Request} {r : Request} {key : String} {sim : Simulation}

/-! ### One request more -/

theorem serve_append_singleton (rs : List Request) (r : Request) (s : Sessions) :
    server.serve (rs ++ [r]) s = (server.handle r (server.serve rs s)).2 := by
  rw [serve, List.foldl_append]
  rfl

theorem CameFrom.extend (h : server.CameFrom rs key sim) (hc : server.commandTo key r = none) :
    server.CameFrom (rs ++ [r]) key sim := by
  obtain ⟨before, r₀, after, g, t, sim₀, rfl, he, hcreated, hkey, hsim⟩ := h
  refine ⟨before, r₀, after ++ [r], g, t, sim₀, by simp, he, hcreated, hkey, ?_⟩
  rw [List.filterMap_append, List.filterMap_cons_none hc, List.filterMap_nil, List.append_nil]
  exact hsim

theorem CameFrom.perform (h : server.CameFrom rs key sim) {c : Command} {next : Simulation}
    (hc : server.commandTo key r = some c) (hp : sim.perform c = some next) :
    server.CameFrom (rs ++ [r]) key next := by
  obtain ⟨before, r₀, after, g, t, sim₀, rfl, he, hcreated, hkey, hsim⟩ := h
  refine ⟨before, r₀, after ++ [r], g, t, sim₀, by simp, he, hcreated, hkey, ?_⟩
  rw [List.filterMap_append, List.filterMap_cons_some hc, List.filterMap_nil]
  rw [Simulation.performAll] at hsim ⊢
  rw [List.foldlM_append, hsim]
  simpa using hp

/-! ### What is always true of the store -/

/-- The live simulations are in order, no more than the limit allows, and each
is what its requests have made of it. -/
structure Kept (server : Server) (rs : List Request) : Prop where
  numbered : ∃ numbers, Sessions.Numbered server.naming server.settings.maxSessions
    (server.serve rs {}) numbers
  cameFrom : ∀ key sim, (server.serve rs {}).get? key = some sim → server.CameFrom rs key sim

/-- What is live after a change is what its requests have made of it, if that
was so before. -/
theorem cameFrom_of_change (hinj : Function.Injective server.naming) {numbers : List Nat}
    (hn : Sessions.Numbered server.naming server.settings.maxSessions (server.serve rs {}) numbers)
    (h : ∀ key sim, (server.serve rs {}).get? key = some sim → server.CameFrom rs key sim)
    {value : Value} {s' : Sessions} (hchange : Change server r (server.serve rs {}) value s')
    (hk : s'.get? key = some sim) : server.CameFrom (rs ++ [r]) key sim := by
  cases hchange with
  | @added g t sim₀ he hc =>
    -- The name of the new one was not in use, so the others are told apart from it.
    by_cases hkey : key = server.naming (server.serve rs {}).created
    · subst hkey
      obtain rfl := Option.some.inj ((OrderedMap.get?_put_self _ _ _).symm.trans hk)
      exact ⟨rs, r, [], g, t, sim₀, rfl, he, hc, rfl, rfl⟩
    · exact (h key sim (hn.get?_of_get?_add hinj hkey hk)).extend (commandTo_of_create he)
  | @removed other he _ =>
    have hne : key ≠ other := by
      rintro rfl
      exact absurd ((OrderedMap.get?_remove_self _ _).symm.trans hk) (by simp)
    exact (h key sim ((OrderedMap.get?_remove_of_ne hne _).symm.trans hk)).extend
      (commandTo_of_ne he hne.symm)
  | @commanded other action sim₀ next c he hlive hc hp =>
    by_cases hne : key = other
    · subst hne
      obtain rfl := Option.some.inj ((Sessions.get?_update_self _ _ _).symm.trans hk)
      exact (h key sim₀ hlive).perform (by rw [commandTo_of_session he, hc]) hp
    · exact (h key sim ((Sessions.get?_update_of_ne hne _ _).symm.trans hk)).extend
        (commandTo_of_ne he (Ne.symm hne))

/-- **No request changes that.** -/
theorem Kept.step (hinj : Function.Injective server.naming) (h : server.Kept rs) (r : Request) :
    server.Kept (rs ++ [r]) := by
  obtain ⟨numbers, hn⟩ := h.numbered
  have hs : server.serve (rs ++ [r]) {} = (server.handle r (server.serve rs {})).2 :=
    serve_append_singleton rs r {}
  have heffect := effect_handle server r (server.serve rs {})
  generalize server.handle r (server.serve rs {}) = out at hs heffect
  constructor
  · rw [hs]
    cases heffect with
    | changed hchange =>
      cases hchange with
      | added => exact ⟨_, hn.add hinj _⟩
      | removed => exact ⟨_, hn.remove _⟩
      | commanded _ hlive _ _ => exact ⟨_, hn.update (by simp [hlive]) _⟩
    | idle => exact ⟨_, hn⟩
  · intro key sim hk
    rw [hs] at hk
    cases heffect with
    | changed hchange => exact cameFrom_of_change hinj hn h.cameFrom hchange hk
    | idle hnone => exact (h.cameFrom key sim hk).extend (hnone key (by simp [hk]))

theorem kept (hinj : Function.Injective server.naming) (rs : List Request) : server.Kept rs := by
  induction rs using List.reverseRecOn with
  | nil => exact ⟨⟨[], Sessions.numbered_empty⟩, fun key sim h => by cases h⟩
  | append_singleton rs r ih => exact ih.step hinj r

/-! ### What comes of a request -/

/-- A request has changed the store, and that is the answer to it; whether it
could be sent is another question. -/
def CarriedOut (server : Server) (r : Request) (s : Sessions) (value : Value) : Prop :=
  Change server r s value (server.handle r s).2 ∧ (server.handle r s).1 = server.sent value

/-- **What becomes of a live simulation that is gone after a request**: its own
deletion was asked for, or one more was created in a full store, of which it
was the oldest. -/
theorem of_get?_handle_eq_none (hinj : Function.Injective server.naming) (rs : List Request)
    (r : Request) (hk : (server.serve rs {}).get? key ≠ none)
    (hgone : (server.handle r (server.serve rs {})).2.get? key = none) :
    (∃ value, server.CarriedOut r (server.serve rs {}) value) ∧
      (server.endpoint? r = some (.session key .delete) ∨
        server.endpoint? r = some .create ∧
          ((server.serve rs {}).size : Int) = max 1 server.settings.maxSessions ∧
          ∃ n, key = server.naming n ∧
            ∀ m, (server.serve rs {}).get? (server.naming m) ≠ none → n ≤ m) := by
  obtain ⟨numbers, hn⟩ := (kept hinj rs).numbered
  have heffect := effect_handle server r (server.serve rs {})
  generalize hout : server.handle r (server.serve rs {}) = out at hgone heffect
  cases heffect with
  | @changed value s' hchange =>
    refine ⟨⟨value, by rw [hout]; exact hchange, by rw [hout]⟩, ?_⟩
    cases hchange with
    | added he _ => exact .inr ⟨he, hn.of_get?_add_eq_none hinj hk hgone⟩
    | @removed other he _ =>
      by_cases hne : key = other
      · subst hne
        exact .inl he
      · exact absurd ((OrderedMap.get?_remove_of_ne hne _).symm.trans hgone) hk
    | @commanded other action sim₀ next c he hlive hc hp =>
      by_cases hne : key = other
      · subst hne
        exact absurd ((Sessions.get?_update_self _ _ _).symm.trans hgone) (by simp)
      · exact absurd ((Sessions.get?_update_of_ne hne _ _).symm.trans hgone) hk
  | idle _ => exact absurd hgone hk

/-- **A request that fails leaves the store as it was**, unless it was carried
out and its answer could not be encoded. -/
theorem handle_of_status (hsends : server.framework.Sends) (r : Request) (s : Sessions)
    (h : 400 ≤ (server.handle r s).1.status) :
    (server.handle r s).2 = s ∨
      ∃ value, server.CarriedOut r s value ∧ ¬ server.framework.IsEncodable value := by
  have heffect := effect_handle server r s
  generalize hout : server.handle r s = out at h heffect
  cases heffect with
  | @changed value s' hchange =>
    refine .inr ⟨value, ⟨by rw [hout]; exact hchange, by rw [hout]⟩, fun hvalue => ?_⟩
    have hok : (server.sent value).status = 200 := hchange.status_eq hsends hvalue
    rw [hok] at h
    omega
  | idle _ => exact .inl rfl

end

/-- **The store of simulations.**  Whatever the requests, if names of
simulations are never given twice: there are no more simulations than the limit
allows, one being always allowed; a simulation is only gone after a request that
deletes it, or after one that creates another in a full store, of which it was
the oldest; a request that fails changes nothing, unless it was carried out and
has an answer that cannot be encoded; and each live simulation is what the
requests to it have made of the one that was created. -/
theorem serve_sessions {server : Server} (hinj : Function.Injective server.naming)
    (hsends : server.framework.Sends) (rs : List Request) :
    ((server.serve rs {}).size : Int) ≤ max 1 server.settings.maxSessions ∧
    (∀ r key, (server.serve rs {}).get? key ≠ none →
      (server.handle r (server.serve rs {})).2.get? key = none →
      (∃ value, server.CarriedOut r (server.serve rs {}) value) ∧
        (server.endpoint? r = some (.session key .delete) ∨
          server.endpoint? r = some .create ∧
            ((server.serve rs {}).size : Int) = max 1 server.settings.maxSessions ∧
            ∃ n, key = server.naming n ∧
              ∀ m, (server.serve rs {}).get? (server.naming m) ≠ none → n ≤ m)) ∧
    (∀ r, 400 ≤ (server.handle r (server.serve rs {})).1.status →
      (server.handle r (server.serve rs {})).2 = server.serve rs {} ∨
        ∃ value, server.CarriedOut r (server.serve rs {}) value ∧
          ¬ server.framework.IsEncodable value) ∧
    ∀ key sim, (server.serve rs {}).get? key = some sim → server.CameFrom rs key sim := by
  obtain ⟨⟨numbers, hn⟩, hcame⟩ := kept hinj rs
  exact ⟨hn.size_le, fun r key hk hgone => of_get?_handle_eq_none hinj rs r hk hgone,
    fun r => handle_of_status hsends r _, hcame⟩

/-- A server that keeps two simulations is asked for a third one, after
requests to both of them of which some fail. -/
theorem serve_sessions_evicted :
    let server : Server :=
      { settings := { maxSessions := 2 }, naming := fun n => .ofList (List.replicate (n + 1) 'k')
        framework := .standard }
    let create (tokens : String) : Request :=
      ⟨"POST", "/api/simulations", some (.object [("grammar_start", .text "S"),
        ("grammar_lines", .list [.text "S -> a S | b"]), ("tokens", .text tokens)])⟩
    let rs : List Request := [create "a b", create "b", ⟨"POST", "/api/simulations/k/step", none⟩,
      ⟨"POST", "/api/simulations/kk/step", none⟩, ⟨"POST", "/api/simulations/kk/run", none⟩,
      ⟨"DELETE", "/api/simulations/k/step", none⟩, ⟨"GET", "/api/simulations/kk/tree", none⟩]
    Function.Injective server.naming ∧ server.framework.Sends ∧
    ((server.serve rs {}).size : Int) = max 1 server.settings.maxSessions ∧
    (∃ n, "k" = server.naming n ∧
      ∀ m, (server.serve rs {}).get? (server.naming m) ≠ none → n ≤ m) ∧
    ∃ sim, (server.serve rs {}).get? "kk" = some sim ∧ sim.current.steps = 1 ∧
      server.CameFrom rs "kk" sim := by
  intro server create rs
  have hinj : Function.Injective server.naming := by
    intro n m h
    have hlength := congrArg (fun s : String => s.toList.length) h
    simpa [server] using hlength
  have hsends : server.framework.Sends := Framework.sends_standard
  obtain ⟨-, hgone, -, hcame⟩ := @serve_sessions server hinj hsends rs
  have hasked : server.endpoint? (create "a a b") = some .create := by decide +kernel
  have hlive : (server.serve rs {}).get? "k" ≠ none :=
    Option.isSome_iff_ne_none.1 (by decide +kernel)
  have hnone : (server.handle (create "a a b") (server.serve rs {})).2.get? "k" = none :=
    Option.isNone_iff_eq_none.1 (by decide +kernel)
  have hsteps : ((server.serve rs {}).get? "kk").map (·.current.steps) = some 1 := by
    decide +kernel
  obtain ⟨sim, hsim, hone⟩ := Option.map_eq_some_iff.1 hsteps
  obtain ⟨-, hdelete | ⟨-, hfull, holdest⟩⟩ := hgone (create "a a b") "k" hlive hnone
  · rw [hasked] at hdelete
    cases hdelete
  · exact ⟨hinj, hsends, hfull, holdest, sim, hsim, hone, hcame "kk" sim hsim⟩

/-- The tokens are the unpaired half of a surrogate pair.  A full store makes
room for the simulation, and only then it turns out that the answer cannot be
encoded. -/
theorem serve_sessions_unsendable :
    let server : Server :=
      { settings := { maxSessions := 1 }, naming := fun n => .ofList (List.replicate (n + 1) 'k')
        framework := .standard }
    let create (tokens : String) : Request :=
      ⟨"POST", "/api/simulations", some (.object [("grammar_start", .text "S"),
        ("grammar_lines", .list [.text "S -> a S | b"]), ("tokens", .text tokens)])⟩
    let store := server.serve [create "a b"] {}
    let r := create (.singleton (.ofNat Standard.firstHalf))
    (server.handle r store).1.status = 400 ∧ store.get? "k" ≠ none ∧
      (server.handle r store).2.get? "k" = none ∧ (server.handle r store).2.get? "kk" ≠ none := by
  intro server create store r
  exact ⟨by decide +kernel, Option.isSome_iff_ne_none.1 (by decide +kernel),
    Option.isNone_iff_eq_none.1 (by decide +kernel),
    Option.isSome_iff_ne_none.1 (by decide +kernel)⟩

end Server

end PredictiveParsing
