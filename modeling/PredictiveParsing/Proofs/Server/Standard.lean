import PredictiveParsing.Server.Standard

/-
The usual framework is one.

What servers assume of their framework holds of the usual one: it finds
endpoints where they are declared, it reads alike what requests have in common,
and it sends flat answers of encodable texts.

* `finds_standard`, `readsAlike_standard`, `sends_standard` — the assumptions;
* `Checked.seq_eq_valid_iff` — a record is read if all its fields are.
-/
namespace PredictiveParsing

namespace Checked

variable {α β : Type}

theorem seq_eq_valid_iff {f : Checked (α → β)} {a : Checked α} {b : β} :
    f <*> a = .valid b ↔ ∃ g x, f = .valid g ∧ a = .valid x ∧ g x = b := by
  change seq f a = _ ↔ _
  cases f <;> cases a <;> simp [seq]

theorem map_eq_valid_iff {f : α → β} {a : Checked α} {b : β} :
    f <$> a = .valid b ↔ ∃ x, a = .valid x ∧ f x = b := by
  change seq (.valid f) a = _ ↔ _
  cases a <;> simp [seq]

end Checked

namespace Server.Standard

/-! ### Routes -/

theorem routeOf_of_lookup {method path : String} {e : Endpoint}
    (h : (endpointsAt path).lookup method = some e) : routeOf method path = .ok e := by
  rw [routeOf]
  split
  · next he => simp [he] at h
  · rw [h]

/-- The parts of a path for simulations. -/
theorem pieces_simulations (cs : List Char) :
    Text.pieces '/' ("/api/simulations/".toList ++ cs) =
      [] :: "api".toList :: "simulations".toList :: Text.pieces '/' cs := by
  have hpath : "/api/simulations/".toList ++ cs =
      [] ++ '/' :: ("api".toList ++ '/' :: ("simulations".toList ++ '/' :: cs)) := by
    simp
  rw [hpath, Text.pieces_append_cons (by simp), Text.pieces_append_cons (by simp),
    Text.pieces_append_cons (by simp)]

section

variable {key : String} (hne : key ≠ "") (hkey : '/' ∉ key.toList)

include hne hkey

theorem endpointsAt_key :
    endpointsAt ("/api/simulations/" ++ key) = endpointsOfSession key [] := by
  rw [endpointsAt, String.toList_append, pieces_simulations, Text.pieces_of_notMem hkey]
  simp only [List.map_cons, List.map_nil, String.ofList_toList]
  show (if key = "" then [] else endpointsOfSession key []) = _
  rw [if_neg hne]

theorem endpointsAt_action {action : String} (haction : '/' ∉ action.toList)
    (hend : withoutNewline action = action) :
    endpointsAt ("/api/simulations/" ++ key ++ ("/" ++ action)) = endpointsOfAction key action := by
  have hpath : ("/api/simulations/" ++ key ++ ("/" ++ action)).toList =
      "/api/simulations/".toList ++ (key.toList ++ '/' :: action.toList) := by
    simp [String.toList_append]
  rw [endpointsAt, hpath, pieces_simulations, Text.pieces_append_cons hkey,
    Text.pieces_of_notMem haction]
  simp only [List.map_cons, List.map_nil, String.ofList_toList]
  show endpointsOfParts ["api", "simulations", key, withoutNewline action] = _
  rw [hend]
  show (if key = "" then [] else endpointsOfAction key action) = _
  rw [if_neg hne]

/-- Each action on a simulation is found behind its key. -/
theorem lookup_session (action : SessionAction) :
    (endpointsAt ("/api/simulations/" ++ key ++ Endpoint.actionPath action)).lookup
      (Endpoint.session key action).method = some (.session key action) := by
  have hkept : ∀ name ∈ ["step", "back", "rewind", "run", "tree"],
      '/' ∉ name.toList ∧ withoutNewline name = name := by decide +kernel
  have hfound : ∀ name ∈ ["step", "back", "rewind", "run", "tree"],
      endpointsAt ("/api/simulations/" ++ key ++ ("/" ++ name)) = endpointsOfAction key name :=
    fun name hname => endpointsAt_action hne hkey (hkept name hname).1 (hkept name hname).2
  cases action with
  | look => rw [Endpoint.actionPath, String.append_empty, endpointsAt_key hne hkey]; rfl
  | delete => rw [Endpoint.actionPath, String.append_empty, endpointsAt_key hne hkey]; rfl
  | step => exact congrArg (List.lookup _) (hfound "step" (by simp))
  | back => exact congrArg (List.lookup _) (hfound "back" (by simp))
  | rewind => exact congrArg (List.lookup _) (hfound "rewind" (by simp))
  | run => exact congrArg (List.lookup _) (hfound "run" (by simp))
  | tree => exact congrArg (List.lookup _) (hfound "tree" (by simp))

end

theorem routeOf_query (q : Query) :
    routeOf (Endpoint.query q).method (Endpoint.query q).path = .ok (.query q) := by
  apply routeOf_of_lookup
  cases q <;> decide +kernel

theorem routeOf_create :
    routeOf Endpoint.create.method Endpoint.create.path = .ok .create :=
  routeOf_of_lookup (by decide +kernel)

/-! ### Bodies -/

variable {body : Option Value}

/-- Only objects can be read through their fields. -/
theorem readWith_eq_ok_iff {α : Type} {read : Fields → Checked α} {a : α} :
    readWith read body = .ok a ↔
      ∃ fields, body = some (.object fields) ∧ read fields = .valid a := by
  have hok : readWith read body = .ok a ↔ readBody read body = .valid a := by
    rw [readWith]
    cases readBody read body with
    | valid b =>
      show Except.ok b = .ok a ↔ Checked.valid b = .valid a
      simp
    | invalid issues =>
      show Except.error (issuesResponse issues) = .ok a ↔ Checked.invalid issues = .valid a
      simp
  rw [hok]
  constructor
  · intro h
    cases body with
    | none => cases h
    | some v =>
      cases v with
      | object fields => exact ⟨fields, rfl, h⟩
      | null => cases h
      | bool b => cases h
      | int n => cases h
      | decimal x => cases h
      | text s => cases h
      | list items => cases h
  · rintro ⟨fields, rfl, h⟩
    exact h

/-- **What a request for everything at once carries is what is asked for when a
simulation is created and run.** -/
theorem read_of_parseOfFields {fields : Fields} {o : ParseOptions}
    (h : parseOfFields fields = .valid o) :
    simulationOfFields fields = .valid ⟨o.table, o.tokens⟩ ∧
      maxStepsOfFields fields = .valid o.maxSteps := by
  simp only [parseOfFields, Checked.seq_eq_valid_iff, Checked.map_eq_valid_iff] at h
  obtain ⟨_, _, ⟨_, maxSteps, ⟨_, tokens, ⟨table, ht, rfl⟩, htokens, rfl⟩, hm, rfl⟩, -, rfl⟩ := h
  refine ⟨?_, hm⟩
  simp only [simulationOfFields, Checked.seq_eq_valid_iff, Checked.map_eq_valid_iff]
  exact ⟨_, tokens, ⟨table, ht, rfl⟩, htokens, rfl⟩

/-! ### Rendering -/

theorem textFlaw?_eq_none {cs : List Char} (h : cs.all (fun c => !isHalf c) = true) :
    textFlaw? cs = none := by
  have hnone : cs.findIdx? isHalf = none := by simpa [List.findIdx?_eq_none_iff] using h
  rw [textFlaw?, hnone]
  rfl

theorem answerTextFlaw?_eq_none {s : String} (h : s.toList.all (fun c => !isHalf c) = true) :
    answerTextFlaw? s = none := by
  rw [answerTextFlaw?, textFlaw?_eq_none h]
  rfl

mutual

/-- What is not nested too deep has no flaw but that of its texts. -/
theorem flaw?_eq_none : ∀ {room : Nat} {v : Value}, v.depth ≤ room →
    (∀ s ∈ v.textsIn, s.toList.all (fun c => !isHalf c) = true) → flaw? room v = none
  | 0, v, hd, _ => absurd hd (by cases v <;> simp [Value.depth])
  | _ + 1, .text _, _, ht => answerTextFlaw?_eq_none (ht _ (by simp [Value.textsIn]))
  | _ + 1, .list _, hd, ht => itemsFlaw?_eq_none (Nat.le_of_succ_le_succ hd) ht
  | _ + 1, .object _, hd, ht => fieldsFlaw?_eq_none (Nat.le_of_succ_le_succ hd) ht
  | _ + 1, .null, _, _ => rfl
  | _ + 1, .bool _, _, _ => rfl
  | _ + 1, .int _, _, _ => rfl
  | _ + 1, .decimal _, _, _ => rfl

theorem itemsFlaw?_eq_none : ∀ {room : Nat} {items : List Value}, Value.itemsDepth items ≤ room →
    (∀ s ∈ Value.itemsTexts items, s.toList.all (fun c => !isHalf c) = true) →
    itemsFlaw? room items = none
  | _, [], _, _ => rfl
  | _, _ :: _, hd, ht => by
    rw [itemsFlaw?, flaw?_eq_none (Nat.max_le.1 hd).1 fun s hs => ht s (List.mem_append_left _ hs),
      itemsFlaw?_eq_none (Nat.max_le.1 hd).2 fun s hs => ht s (List.mem_append_right _ hs)]
    rfl

theorem fieldsFlaw?_eq_none : ∀ {room : Nat} {fields : List (String × Value)},
    Value.fieldsDepth fields ≤ room →
    (∀ s ∈ Value.fieldsTexts fields, s.toList.all (fun c => !isHalf c) = true) →
    fieldsFlaw? room fields = none
  | _, [], _, _ => rfl
  | _, (name, _) :: _, hd, ht => by
    obtain ⟨hname, ht⟩ := List.forall_mem_cons.1 ht
    rw [fieldsFlaw?, answerTextFlaw?_eq_none hname,
      flaw?_eq_none (Nat.max_le.1 hd).1 fun s hs => ht s (List.mem_append_left _ hs),
      fieldsFlaw?_eq_none (Nat.max_le.1 hd).2 fun s hs => ht s (List.mem_append_right _ hs)]
    rfl

end

end Server.Standard

namespace Server.Framework

open Standard

theorem finds_standard : standard.Finds := by
  intro e he
  cases e with
  | query q => exact routeOf_query q
  | create => exact routeOf_create
  | session key action => exact routeOf_of_lookup (lookup_session he.1 he.2 action)

theorem readsAlike_standard : standard.ReadsAlike where
  simulation h := by
    obtain ⟨fields, rfl, hread⟩ := readWith_eq_ok_iff.1 h
    exact readWith_eq_ok_iff.2 ⟨fields, rfl, (read_of_parseOfFields hread).1⟩
  run h := by
    obtain ⟨fields, rfl, hread⟩ := readWith_eq_ok_iff.1 h
    exact readWith_eq_ok_iff.2 ⟨fields, rfl, (read_of_parseOfFields hread).2⟩

theorem sends_standard : standard.Sends :=
  fun _ hdepth htexts => flaw?_eq_none hdepth htexts

end Server.Framework

end PredictiveParsing
