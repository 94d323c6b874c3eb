import Mathlib.Data.List.Nodup
import PredictiveParsing.Server.Sessions

/-
The store of simulations.

Simulations are counted, and the live ones stand in the order of their numbers.
So the oldest one is the first, also after others were given up in between, and
it is the one that goes when a full store takes a new one.

* `OrderedMap.get?_remove_self`, `OrderedMap.get?_remove_of_ne` — a map without
  one of its keys;
* `Sessions.Numbered` — the live simulations in the order of their numbers, no
  more than the limit allows;
* `Numbered.makeRoom_eq` — at most the oldest one makes room;
* `Numbered.add`, `Numbered.remove`, `Numbered.update` — the operations keep
  the order and the limit;
* `Numbered.get?_of_get?_add`, `Numbered.of_get?_add_eq_none` — what is there
  after one more was added, and what is not.
-/
namespace PredictiveParsing

/-! ### Maps -/

namespace OrderedMap

variable {κ α : Type} [DecidableEq κ] {k k' : κ} {a : α} {m : OrderedMap κ α}

theorem put_eq_self (h : get? k m = some a) : put k a m = m := by
  induction m with
  | nil => cases h
  | cons e m ih =>
    rw [get?] at h
    rw [put]
    split at h
    · next he =>
      obtain rfl := Option.some.inj h
      rw [if_pos he, ← he]
    · next he => rw [if_neg he, ih h]

theorem keys_remove (k : κ) (m : OrderedMap κ α) :
    keys (remove k m) = (keys m).filter (· ≠ k) := by
  rw [remove, keys, keys, List.filter_map]
  rfl

@[simp] theorem get?_remove_self (k : κ) (m : OrderedMap κ α) : get? k (remove k m) = none := by
  rw [get?_eq_none_iff, keys_remove, List.mem_filter]
  simp

theorem get?_remove_of_ne (h : k' ≠ k) (m : OrderedMap κ α) :
    get? k' (remove k m) = get? k' m := by
  induction m with
  | nil => rfl
  | cons e m ih =>
    rw [remove] at ih ⊢
    by_cases he : e.1 = k
    · have hne : e.1 ≠ k' := fun h' => h (h'.symm.trans he)
      rw [List.filter_cons_of_neg (by simpa using he), ih, get?, if_neg hne]
    · rw [List.filter_cons_of_pos (by simpa using he), get?, get?, ih]

/-- What is found behind the first entry is found in the whole map. -/
theorem get?_of_get?_tail (hm : (keys m).Nodup) (h : get? k m.tail = some a) :
    get? k m = some a := by
  cases m with
  | nil => exact h
  | cons e m =>
    refine get?_of_mem hm (List.mem_cons_of_mem _ (mem_of_get? h))

/-- What is not found behind the first entry is under its key or nowhere. -/
theorem head?_keys_of_get?_tail (h : get? k m.tail = none) (hk : get? k m ≠ none) :
    (keys m).head? = some k := by
  cases m with
  | nil => exact absurd rfl hk
  | cons e m =>
    rw [get?] at hk
    split at hk
    · next he => rw [keys_cons, List.head?_cons, he]
    · exact absurd h hk

end OrderedMap

namespace Sessions

theorem update_eq_self {key : String} {sim : Simulation} {s : Sessions}
    (h : s.get? key = some sim) : s.update key sim = s := by
  rw [update, OrderedMap.put_eq_self h]

/-! ### Simulations by number -/

/-- The live simulations stand in the order of their numbers, with the names of
these as their keys; there are no more of them than the limit allows, but one is
always allowed. -/
structure Numbered (naming : Nat → String) (limit : Int) (s : Sessions) (numbers : List Nat) :
    Prop where
  keys_eq : OrderedMap.keys s.live = numbers.map naming
  increasing : numbers.Pairwise (· < ·)
  lt_created : ∀ n ∈ numbers, n < s.created
  size_le : (s.size : Int) ≤ max 1 limit

variable {naming : Nat → String} {limit : Int} {s : Sessions} {numbers : List Nat}
  {key : String} {sim : Simulation}

theorem numbered_empty : Numbered naming limit {} [] :=
  ⟨rfl, .nil, by simp, by simp only [size, List.length_nil]; omega⟩

section

variable (h : Numbered naming limit s numbers)

include h

theorem Numbered.length_eq : numbers.length = s.size := by
  have hl := congrArg List.length h.keys_eq
  simpa [OrderedMap.keys, size, eq_comm] using hl

theorem Numbered.get?_ne_none_iff : s.get? key ≠ none ↔ ∃ n ∈ numbers, naming n = key := by
  rw [get?, Ne, OrderedMap.get?_eq_none_iff, not_not, h.keys_eq, List.mem_map]

/-- **At most the oldest simulation makes room**, and only if the store is
full. -/
theorem Numbered.makeRoom_eq : makeRoom limit s.live =
    if limit ≤ s.size then s.live.tail else s.live := by
  have hsize := h.size_le
  rw [size] at hsize ⊢
  cases hm : s.live with
  | nil => rw [makeRoom, List.tail_nil, ite_self]
  | cons e es =>
    rw [hm, List.length_cons] at hsize
    rw [makeRoom, List.tail_cons]
    split
    · -- One is gone, and there is room for one more.
      cases es with
      | nil => rfl
      | cons e' es =>
        rw [List.length_cons] at hsize
        rw [makeRoom, if_neg]
        rw [List.length_cons]
        omega
    · rfl

theorem Numbered.remove (key : String) :
    Numbered naming limit (s.remove key) (numbers.filter fun n => naming n ≠ key) := by
  refine ⟨?_, h.increasing.filter _, fun n hn => h.lt_created n (List.mem_filter.1 hn).1, ?_⟩
  · rw [Sessions.remove, OrderedMap.keys_remove, h.keys_eq, List.filter_map]
    rfl
  · have hle : (s.remove key).size ≤ s.size := List.length_filter_le _ _
    have hsize := h.size_le
    omega

theorem Numbered.update (hk : s.get? key ≠ none) (sim : Simulation) :
    Numbered naming limit (s.update key sim) numbers := by
  have hmem : key ∈ OrderedMap.keys s.live := by
    rwa [get?, Ne, OrderedMap.get?_eq_none_iff, not_not] at hk
  have hkeys : OrderedMap.keys (s.update key sim).live = OrderedMap.keys s.live := by
    rw [Sessions.update, OrderedMap.keys_put, if_pos hmem]
  have hsize : (s.update key sim).size = s.size := by
    simpa [OrderedMap.keys, size] using congrArg List.length hkeys
  exact ⟨hkeys.trans h.keys_eq, h.increasing, h.lt_created, by rw [hsize]; exact h.size_le⟩

variable (hinj : Function.Injective naming)

include hinj

theorem Numbered.nodup_keys : (OrderedMap.keys s.live).Nodup := by
  rw [h.keys_eq]
  exact List.Nodup.map hinj (h.increasing.imp Nat.ne_of_lt)

/-- The name of the next simulation is not in use. -/
theorem Numbered.naming_created_notMem :
    naming s.created ∉ OrderedMap.keys (makeRoom limit s.live) := by
  have hnot : naming s.created ∉ OrderedMap.keys s.live := by
    rw [h.keys_eq, List.mem_map]
    rintro ⟨n, hn, he⟩
    exact Nat.lt_irrefl _ (hinj he ▸ h.lt_created n hn)
  rw [h.makeRoom_eq]
  split
  · rw [OrderedMap.keys, List.map_tail]
    exact fun hm => hnot (List.mem_of_mem_tail hm)
  · exact hnot

/-- A new simulation comes last; in a full store the oldest one goes. -/
theorem Numbered.add (sim : Simulation) :
    Numbered naming limit (s.add limit naming sim).2
      ((if limit ≤ s.size then numbers.tail else numbers) ++ [s.created]) := by
  have hkeys : OrderedMap.keys (makeRoom limit s.live) =
      (if limit ≤ s.size then numbers.tail else numbers).map naming := by
    rw [h.makeRoom_eq]
    split
    · rw [List.map_tail, ← h.keys_eq, OrderedMap.keys, OrderedMap.keys, List.map_tail]
    · exact h.keys_eq
  have hnumbers : ∀ n ∈ (if limit ≤ s.size then numbers.tail else numbers), n ∈ numbers := by
    intro n hn
    split at hn
    · exact List.mem_of_mem_tail hn
    · exact hn
  have hlive : OrderedMap.keys (s.add limit naming sim).2.live =
      ((if limit ≤ s.size then numbers.tail else numbers) ++ [s.created]).map naming := by
    rw [Sessions.add, OrderedMap.keys_put, if_neg (h.naming_created_notMem hinj), hkeys,
      List.map_append]
    rfl
  refine ⟨hlive, ?_, ?_, ?_⟩
  · rw [List.pairwise_append]
    refine ⟨?_, List.pairwise_singleton _ _, fun n hn m hm => ?_⟩
    · split
      · exact h.increasing.tail
      · exact h.increasing
    · rw [List.mem_singleton.1 hm]
      exact h.lt_created n (hnumbers n hn)
  · intro n hn
    rcases List.mem_append.1 hn with hn | hn
    · exact Nat.lt_succ_of_lt (h.lt_created n (hnumbers n hn))
    · rw [List.mem_singleton.1 hn]
      exact Nat.lt_succ_self _
  · have hsize := h.size_le
    have hlength := h.length_eq
    have hl := congrArg List.length hlive
    rw [OrderedMap.keys, List.length_map, List.length_map, List.length_append,
      List.length_singleton] at hl
    rw [size, hl]
    split
    · rw [List.length_tail]
      omega
    · omega

/-- What is kept beside a new simulation was there before. -/
theorem Numbered.get?_of_get?_add {other : Simulation} (hne : key ≠ naming s.created)
    (hk : (s.add limit naming sim).2.get? key = some other) : s.get? key = some other := by
  have hroom : OrderedMap.get? key (makeRoom limit s.live) = some other :=
    (OrderedMap.get?_put_of_ne hne sim _).symm.trans hk
  rw [h.makeRoom_eq] at hroom
  split at hroom
  · exact OrderedMap.get?_of_get?_tail (h.nodup_keys hinj) hroom
  · exact hroom

/-- **What is gone when a simulation was added is the oldest one**, and the
store was full. -/
theorem Numbered.of_get?_add_eq_none (hk : s.get? key ≠ none)
    (hgone : (s.add limit naming sim).2.get? key = none) :
    (s.size : Int) = max 1 limit ∧
      ∃ n, key = naming n ∧ ∀ m, s.get? (naming m) ≠ none → n ≤ m := by
  have hne : key ≠ naming s.created := by
    rintro rfl
    exact absurd ((OrderedMap.get?_put_self _ _ _).symm.trans hgone) (by simp)
  have hroom : OrderedMap.get? key (makeRoom limit s.live) = none :=
    (OrderedMap.get?_put_of_ne hne sim _).symm.trans hgone
  rw [h.makeRoom_eq] at hroom
  split at hroom
  · next hfull =>
    have hhead := OrderedMap.head?_keys_of_get?_tail hroom hk
    rw [h.keys_eq, List.head?_map, Option.map_eq_some_iff] at hhead
    obtain ⟨n, hn, rfl⟩ := hhead
    obtain ⟨later, rfl⟩ := List.head?_eq_some_iff.1 hn
    have hlength := h.length_eq
    have hsize := h.size_le
    rw [List.length_cons] at hlength
    refine ⟨by omega, n, rfl, fun m hm => ?_⟩
    obtain ⟨m', hmem, he⟩ := h.get?_ne_none_iff.1 hm
    obtain rfl := hinj he
    rcases List.mem_cons.1 hmem with rfl | hlater
    · exact Nat.le_refl _
    · exact Nat.le_of_lt ((List.pairwise_cons.1 h.increasing).1 _ hlater)
  · exact absurd hroom hk

end

end Sessions

end PredictiveParsing
