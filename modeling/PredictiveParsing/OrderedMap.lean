/-
Maps that remember the order of their keys.

A map is the list of its entries; a key keeps the place of its first
insertion, whatever is stored under it later.

* `get?`, `put`, `remove`, `ofList`, `keys` — operations;
* `get?_put_self`, `get?_put_of_ne` — looking up after storing;
* `keys_put`, `nodup_keys_put`, `put_of_get?_eq_none` — the keys after storing,
  none of them twice, and the place of a new one;
* `get?_append` — looking up in entries behind others;
* `mem_of_get?`, `get?_of_mem` — what is looked up are the entries.
-/
namespace PredictiveParsing

/-- Entries in the order of the first insertion of their keys. -/
abbrev OrderedMap (κ α : Type) := List (κ × α)

namespace OrderedMap

variable {κ α : Type} [DecidableEq κ]

/-- What is stored under a key. -/
def get? (k : κ) : OrderedMap κ α → Option α
  | [] => none
  | e :: es => if e.1 = k then some e.2 else get? k es

/-- Stores a value under a key, in place if the key is there and at the end
otherwise. -/
def put (k : κ) (a : α) : OrderedMap κ α → OrderedMap κ α
  | [] => [(k, a)]
  | e :: es => if e.1 = k then (k, a) :: es else e :: put k a es

/-- The map without a key. -/
def remove (k : κ) (m : OrderedMap κ α) : OrderedMap κ α :=
  m.filter fun e => e.1 ≠ k

/-- The map that results from storing entries one after the other. -/
def ofList (es : List (κ × α)) : OrderedMap κ α :=
  es.foldl (fun m e => put e.1 e.2 m) []

/-- The keys in order. -/
def keys (m : OrderedMap κ α) : List κ :=
  m.map (·.1)

/-! ### Looking up after storing -/

@[simp] theorem get?_put_self (k : κ) (a : α) (m : OrderedMap κ α) :
    get? k (put k a m) = some a := by
  induction m with
  | nil => simp [put, get?]
  | cons e es ih =>
    rw [put]
    split
    · simp [get?]
    · next h => rw [get?, if_neg h, ih]

theorem get?_put_of_ne {k k' : κ} (h : k' ≠ k) (a : α) (m : OrderedMap κ α) :
    get? k' (put k a m) = get? k' m := by
  induction m with
  | nil => simp [put, get?, Ne.symm h]
  | cons e es ih =>
    rw [put]
    split
    · next he =>
      have : ¬ e.1 = k' := fun h' => h (h'.symm.trans he)
      rw [get?, get?, if_neg (Ne.symm h), if_neg this]
    · rw [get?, get?, ih]

omit [DecidableEq κ] in
@[simp] theorem keys_cons (e : κ × α) (es : OrderedMap κ α) :
    keys (e :: es) = e.1 :: keys es := rfl

/-- Storing keeps the keys and their order; a new key comes last. -/
theorem keys_put (k : κ) (a : α) (m : OrderedMap κ α) :
    keys (put k a m) = if k ∈ keys m then keys m else keys m ++ [k] := by
  induction m with
  | nil => simp [put, keys]
  | cons e es ih =>
    rw [put]
    split
    · next h => subst h; simp [keys]
    · next h =>
      have hk : ¬ k = e.1 := fun h' => h h'.symm
      rw [keys_cons, keys_cons, ih]
      by_cases hm : k ∈ keys es <;> simp [hm, hk]

/-- Storing lists no key twice. -/
theorem nodup_keys_put {m : OrderedMap κ α} (h : (keys m).Nodup) (k : κ) (a : α) :
    (keys (put k a m)).Nodup := by
  rw [keys_put]
  split
  · exact h
  · next hk =>
    rw [List.nodup_append]
    refine ⟨h, by simp, ?_⟩
    rintro x hx y hy rfl
    exact hk (List.mem_singleton.1 hy ▸ hx)

theorem get?_isSome {k : κ} {m : OrderedMap κ α} :
    (get? k m).isSome ↔ k ∈ keys m := by
  induction m with
  | nil => simp [get?, keys]
  | cons e es ih =>
    rw [get?]
    split
    · next h => simp [keys, h]
    · next h =>
      have hk : ¬ k = e.1 := fun h' => h h'.symm
      rw [ih]; simp [keys, hk]

theorem get?_eq_none_iff {k : κ} {m : OrderedMap κ α} : get? k m = none ↔ k ∉ keys m := by
  rw [← get?_isSome, Option.not_isSome_iff_eq_none]

theorem put_of_get?_eq_none {k : κ} {m : OrderedMap κ α} (h : get? k m = none) (a : α) :
    put k a m = m ++ [(k, a)] := by
  induction m with
  | nil => rfl
  | cons e m ih =>
    rw [get?] at h
    split at h
    · cases h
    · next hne => rw [put, if_neg hne, ih h, List.cons_append]

theorem get?_append (k : κ) (m n : OrderedMap κ α) :
    get? k (m ++ n) = (get? k m).or (get? k n) := by
  induction m with
  | nil => rfl
  | cons e m ih =>
    rw [List.cons_append, get?, get?, ih]
    split <;> rfl

theorem mem_of_get? {k : κ} {a : α} {m : OrderedMap κ α} (h : get? k m = some a) : (k, a) ∈ m := by
  induction m with
  | nil => simp [get?] at h
  | cons e m ih =>
    rw [get?] at h
    split at h
    · next hk =>
      obtain rfl := Option.some.inj h
      exact hk ▸ List.mem_cons_self
    · exact List.mem_cons_of_mem _ (ih h)

/-- With distinct keys, every entry is what is looked up under its key. -/
theorem get?_of_mem {k : κ} {a : α} {m : OrderedMap κ α} (hm : (keys m).Nodup) (h : (k, a) ∈ m) :
    get? k m = some a := by
  induction m with
  | nil => simp at h
  | cons e m ih =>
    rw [keys_cons, List.nodup_cons] at hm
    rw [get?]
    rcases List.mem_cons.1 h with rfl | h
    · exact if_pos rfl
    · have hne : e.1 ≠ k := by
        rintro rfl
        exact hm.1 (List.mem_map.2 ⟨_, h, rfl⟩)
      rw [if_neg hne]
      exact ih hm.2 h

end OrderedMap

end PredictiveParsing
