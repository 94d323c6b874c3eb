import Mathlib.Data.List.Sort
import Mathlib.Data.String.Basic
import PredictiveParsing.Proofs.Sets.Least

/-
Sets with the same members are the same.

Sets are lists in ascending order, and everything that solving adds is put in
its place.  So two solutions with the same names and the same members have the
same set under each name, however they were come by.

* `SymbolSet.IsAscending`, `IsAscending.ext` — a set is told by its members;
* `Family.IsCanonical`, `IsCanonical.get?_eq` — a family is told by its names
  and their members;
* `Settles.isCanonical`, `Settles.keys_eq` — solving keeps sets ascending, and
  lists no new names if those of the targets are listed.
-/
namespace PredictiveParsing

/-! ### Sets -/

namespace SymbolSet

/-- The members stand in ascending order, none of them twice. -/
def IsAscending (s : SymbolSet) : Prop :=
  s.Pairwise (· < ·)

theorem IsAscending.insert {s : SymbolSet} (h : s.IsAscending) (x : String) :
    (insert x s).IsAscending := by
  induction s with
  | nil => exact List.pairwise_singleton _ _
  | cons y ys ih =>
    obtain ⟨hy, hys⟩ := List.pairwise_cons.1 h
    rw [SymbolSet.insert]
    split
    · exact h
    · next hne =>
      split
      · next hlt =>
        refine List.pairwise_cons.2 ⟨?_, h⟩
        intro z hz
        rcases List.mem_cons.1 hz with rfl | hz
        · exact hlt
        · exact lt_trans hlt (hy z hz)
      · next hnot =>
        have hlt : y < x := lt_of_le_of_ne (not_lt.1 hnot) (Ne.symm hne)
        refine List.pairwise_cons.2 ⟨?_, ih hys⟩
        intro z hz
        rcases mem_insert.1 hz with rfl | hz
        · exact hlt
        · exact hy z hz

theorem IsAscending.union {s : SymbolSet} (h : s.IsAscending) (t : SymbolSet) :
    (union s t).IsAscending := by
  rw [SymbolSet.union]
  induction t generalizing s with
  | nil => exact h
  | cons x t ih => exact ih (h.insert x)

/-- **A set is told by its members.** -/
theorem IsAscending.ext {s t : SymbolSet} (hs : s.IsAscending) (ht : t.IsAscending)
    (h : ∀ x, x ∈ s ↔ x ∈ t) : s = t :=
  List.Pairwise.eq_of_mem_iff hs ht h

end SymbolSet

/-! ### Families -/

namespace Family

/-- Every set of the family is in ascending order. -/
def IsCanonical (f : Family) : Prop :=
  ∀ n, (f.of n).IsAscending

theorem isCanonical_nil : IsCanonical [] :=
  fun _ => .nil

theorem IsCanonical.add {f : Family} (h : f.IsCanonical) (n : String) (s : SymbolSet) :
    (f.add n s).IsCanonical := by
  intro m
  by_cases hm : m = n
  · subst hm
    rw [of_add_self]
    exact (h m).union s
  · rw [of_add_of_ne hm]
    exact h m

theorem mem_keys_declare {n m : String} {f : Family} :
    m ∈ OrderedMap.keys (declare n f) ↔ m = n ∨ m ∈ OrderedMap.keys f := by
  rw [declare]
  split
  · next hn =>
    refine ⟨.inr, ?_⟩
    rintro (rfl | hm)
    · exact hn
    · exact hm
  · simp [OrderedMap.keys, or_comm]

theorem mem_keys_declareAll {ns : List String} {m : String} {f : Family} :
    m ∈ OrderedMap.keys (declareAll ns f) ↔ m ∈ ns ∨ m ∈ OrderedMap.keys f := by
  induction ns generalizing f with
  | nil => simp [declareAll]
  | cons n ns ih =>
    rw [declareAll, List.foldl_cons]
    refine ih.trans ?_
    rw [mem_keys_declare, List.mem_cons]
    tauto

theorem nodup_keys_declare (n : String) {f : Family} (h : (OrderedMap.keys f).Nodup) :
    (OrderedMap.keys (declare n f)).Nodup := by
  rw [declare]
  split
  · exact h
  · next hn =>
    have hnone : OrderedMap.get? n f = none := OrderedMap.get?_eq_none_iff.2 hn
    rw [← OrderedMap.put_of_get?_eq_none hnone]
    exact OrderedMap.nodup_keys_put h n []

theorem nodup_keys_declareAll (ns : List String) {f : Family} (h : (OrderedMap.keys f).Nodup) :
    (OrderedMap.keys (declareAll ns f)).Nodup :=
  List.foldlRecOn (motive := fun f => (OrderedMap.keys f).Nodup) ns _ h
    fun _ hf n _ => nodup_keys_declare n hf

theorem keys_add {n : String} {f : Family} (h : n ∈ OrderedMap.keys f) (s : SymbolSet) :
    OrderedMap.keys (f.add n s) = OrderedMap.keys f := by
  rw [add, OrderedMap.keys_put, if_pos h]

/-- What is found under a name, by the names that are listed and their sets. -/
theorem get?_eq_ite (n : String) (f : Family) :
    OrderedMap.get? n f = if n ∈ OrderedMap.keys f then some (f.of n) else none := by
  have hkeys := OrderedMap.get?_isSome (k := n) (m := f)
  rw [of]
  cases hn : OrderedMap.get? n f with
  | none => rw [if_neg fun hk => by simpa [hn] using hkeys.2 hk]
  | some s => rw [if_pos (hkeys.1 (by rw [hn]; rfl)), Option.getD_some]

/-- **A family is told by its names and their members.** -/
theorem IsCanonical.get?_eq {f f' : Family} (hf : f.IsCanonical) (hf' : f'.IsCanonical)
    (hkeys : ∀ n, n ∈ OrderedMap.keys f ↔ n ∈ OrderedMap.keys f')
    (hmem : ∀ n x, x ∈ f.of n ↔ x ∈ f'.of n) (n : String) :
    OrderedMap.get? n f = OrderedMap.get? n f' := by
  rw [get?_eq_ite, get?_eq_ite, (hf n).ext (hf' n) (hmem n)]
  exact if_congr (hkeys n) rfl rfl

end Family

/-! ### Solving -/

variable {cs : List Inclusion}

/-- What every pass keeps is true in the end. -/
theorem Settles.induction {P : Family → Prop} (hpass : ∀ f, P f → P (pass cs f).1)
    {f last : Family} {logs : List PassLog} (h : Settles cs f last logs) (hf : P f) : P last := by
  induction h with
  | done _ => exact hpass _ hf
  | next _ _ ih => exact ih (hpass _ hf)

theorem isCanonical_foldl_enforce {state : Family × PassLog} (h : state.1.IsCanonical) :
    (cs.foldl Inclusion.enforce state).1.IsCanonical := by
  induction cs generalizing state with
  | nil => exact h
  | cons c cs ih =>
    refine ih ?_
    rcases c.enforce_cases state with ⟨-, he⟩ | ⟨-, he⟩
    · rwa [he]
    · rw [he]
      exact h.add _ _

theorem keys_foldl_enforce {state : Family × PassLog}
    (h : ∀ c ∈ cs, c.target ∈ OrderedMap.keys state.1) :
    OrderedMap.keys (cs.foldl Inclusion.enforce state).1 = OrderedMap.keys state.1 := by
  induction cs generalizing state with
  | nil => rfl
  | cons c cs ih =>
    obtain ⟨hc, hcs⟩ := List.forall_mem_cons.1 h
    have he : OrderedMap.keys (c.enforce state).1 = OrderedMap.keys state.1 := by
      rcases c.enforce_cases state with ⟨-, he⟩ | ⟨-, he⟩
      · rw [he]
      · rw [he]
        exact Family.keys_add hc _
    rw [List.foldl_cons, ih (by rwa [he]), he]

theorem Settles.isCanonical {f last : Family} {logs : List PassLog} (h : Settles cs f last logs)
    (hf : f.IsCanonical) : last.IsCanonical :=
  h.induction (fun _ hf => isCanonical_foldl_enforce hf) hf

theorem Settles.keys_eq {f last : Family} {logs : List PassLog} (h : Settles cs f last logs)
    (hf : ∀ c ∈ cs, c.target ∈ OrderedMap.keys f) :
    OrderedMap.keys last = OrderedMap.keys f := by
  refine h.induction (P := fun f' => OrderedMap.keys f' = OrderedMap.keys f) ?_ rfl
  intro f' hf'
  rw [pass, keys_foldl_enforce (by rwa [hf'])]
  exact hf'

end PredictiveParsing
