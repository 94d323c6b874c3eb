import Mathlib.Data.List.Nodup
import Mathlib.Data.List.Perm.Subperm
import Mathlib.Logic.Function.Iterate
import PredictiveParsing.Proofs.Grammar.Vocabulary

/-
Fresh names are fresh.

* `firstFree_notMem`, `freshName_spec` — a fresh name is none of the taken
  ones, and it is the antecedent with apostrophes behind it;
* `Extension.Sound` — what is true of a vocabulary while a rewriting adds to
  it;
* `sound_unextended`, `Sound.add` — it is true at first, and naming one more
  non-terminal keeps it;
* `Sound.perm` — the non-terminals are the old ones and the new ones.
-/
namespace PredictiveParsing

/-! ### Candidates -/

theorem length_iterate_prime (k : Nat) (n : String) : (prime^[k] n).length = n.length + k := by
  induction k with
  | zero => rfl
  | succ k ih =>
    rw [Function.iterate_succ_apply', prime, String.length_append, ih]
    show n.length + k + 1 = n.length + (k + 1)
    omega

/-- The search ends at a candidate that is not taken, or passes over all it
may. -/
theorem firstFree_cases {taken : List String} {refused : String → Bool} {left : Nat}
    {n m : String} (h : firstFree taken refused left n = .ok m) :
    ∃ k, m = prime^[k] n ∧ (m ∉ taken ∨ k = left ∧ ∀ i < left, prime^[i] n ∈ taken) := by
  induction left generalizing n with
  | zero =>
    obtain rfl : n = m := Except.ok.inj h
    exact ⟨0, rfl, .inr ⟨rfl, by simp⟩⟩
  | succ left ih =>
    rw [firstFree] at h
    split at h
    · next hn =>
      obtain rfl : n = m := Except.ok.inj h
      exact ⟨0, rfl, .inl hn⟩
    · next hn =>
      split at h
      · cases h
      · obtain ⟨k, hm, hk⟩ := ih h
        refine ⟨k + 1, by rw [hm, Function.iterate_succ_apply], hk.imp_right ?_⟩
        -- All candidates were taken: this one, and those the rest of the search saw.
        rintro ⟨rfl, hall⟩
        refine ⟨rfl, fun i hi => ?_⟩
        cases i with
        | zero => simpa using hn
        | succ i =>
          rw [Function.iterate_succ_apply]
          exact hall i (by omega)

/-- **The search finds a free name**: there are more candidates than taken
names. -/
theorem firstFree_notMem {taken : List String} {refused : String → Bool} {n m : String}
    (h : firstFree taken refused taken.length n = .ok m) : m ∉ taken := by
  obtain ⟨k, rfl, hm | ⟨rfl, hall⟩⟩ := firstFree_cases h
  · exact hm
  · intro hm
    have hsub : (List.range (taken.length + 1)).map (fun i => prime^[i] n) ⊆ taken := by
      intro c hc
      obtain ⟨i, hi, rfl⟩ := List.mem_map.1 hc
      rw [List.mem_range] at hi
      by_cases he : i = taken.length
      · rw [he]
        exact hm
      · exact hall i (by omega)
    have hnodup : ((List.range (taken.length + 1)).map (fun i => prime^[i] n)).Nodup := by
      refine List.Nodup.map (fun i j hij => ?_) List.nodup_range
      have hlength := congrArg String.length hij
      simp only [length_iterate_prime] at hlength
      omega
    have hle := (List.subperm_of_subset hnodup hsub).length_le
    rw [List.length_map, List.length_range] at hle
    omega

namespace Grammar

variable {g : Grammar} {policy : CollisionPolicy}

theorem freshName_spec {taken : List String} {base n : String}
    (h : g.freshName policy taken base = .ok n) :
    n ∉ taken ∧ ∃ k, n = prime^[k] (prime base) := by
  unfold freshName at h
  split at h
  · cases h
  · dsimp only at h
    split at h
    · next m hm =>
      obtain rfl : m = n := Except.ok.inj h
      obtain ⟨k, hk, -⟩ := firstFree_cases hm
      exact ⟨firstFree_notMem hm, k, hk⟩
    · cases h

end Grammar

theorem trim_prime {n : String} (ht : Text.trim n = n) (hne : n ≠ "") :
    Text.trim (prime n) = prime n := by
  refine Text.trim_append ht hne (fun c hc => ?_) (by decide)
  obtain rfl : '\'' = c := Option.some.inj hc
  rfl

theorem prime_ne_empty (n : String) : prime n ≠ "" := by
  intro h
  have := congrArg String.length h
  rw [prime, String.length_append] at this
  have hone : "'".length = 1 := rfl
  have hzero : "".length = 0 := rfl
  omega

theorem prime_notMem_reserved (n : String) : prime n ∉ reserved := by
  have hlast : ∀ m, (prime n) = m → m.toList.getLast? = some '\'' := by
    rintro _ rfl
    rw [prime, String.toList_append, List.getLast?_append]
    rfl
  intro h
  simp only [reserved, List.mem_cons, List.not_mem_nil, or_false] at h
  rcases h with h | h
  · have := hlast _ h
    revert this
    decide
  · have := hlast _ h
    revert this
    decide

/-- A name with apostrophes can be declared if the name can. -/
theorem iterate_prime_declarable (k : Nat) {n : String} (ht : Text.trim n = n) (hne : n ≠ "") :
    Text.trim (prime^[k] (prime n)) = prime^[k] (prime n) ∧ prime^[k] (prime n) ≠ "" ∧
      prime^[k] (prime n) ∉ reserved := by
  induction k with
  | zero => exact ⟨trim_prime ht hne, prime_ne_empty n, prime_notMem_reserved n⟩
  | succ k ih =>
    rw [Function.iterate_succ_apply']
    exact ⟨trim_prime ih.1 ih.2.1, prime_ne_empty _, prime_notMem_reserved _⟩

/-! ### Extensions -/

theorem insertAfter_perm (base new : String) (ns : List String) :
    (insertAfter base new ns).Perm (new :: ns) := by
  induction ns with
  | nil => exact .refl _
  | cons m ns ih =>
    rw [insertAfter]
    split
    · refine (List.Perm.cons m List.perm_middle).trans ((List.Perm.swap _ _ _).trans ?_)
      rw [List.takeWhile_append_dropWhile]
    · exact (ih.cons m).trans (.swap _ _ _)

/-- The old names keep their order. -/
theorem sublist_insertAfter (base new : String) (ns : List String) :
    ns.Sublist (insertAfter base new ns) := by
  induction ns with
  | nil => exact List.nil_sublist _
  | cons m ns ih =>
    rw [insertAfter]
    split
    · have hsplit : (ns.takeWhile (isPrimed base) ++ ns.dropWhile (isPrimed base)).Sublist
          (ns.takeWhile (isPrimed base) ++ new :: ns.dropWhile (isPrimed base)) :=
        (List.Sublist.refl _).append (List.sublist_cons_self _ _)
      rw [List.takeWhile_append_dropWhile] at hsplit
      exact hsplit.cons_cons m
    · exact ih.cons_cons m

/-- A list of names that can be declared takes in one more. -/
theorem declarable_insertAfter {names : List String} (h : Declarable names) {n : String}
    (hn : n ∉ names) (htrim : Text.trim n = n) (hne : n ≠ "") (hres : n ∉ reserved)
    (base : String) : Declarable (insertAfter base n names) := by
  refine ⟨?_, fun m hm => ?_, fun m hm => ?_, fun m hm => ?_⟩
  · rw [(insertAfter_perm base n names).nodup_iff, List.nodup_cons]
    exact ⟨hn, h.nodup⟩
  · rcases mem_insertAfter.1 hm with rfl | hm
    · exact htrim
    · exact h.trim_eq m hm
  · rcases mem_insertAfter.1 hm with rfl | hm
    · exact hne
    · exact h.ne_empty m hm
  · rcases mem_insertAfter.1 hm with rfl | hm
    · exact hres
    · exact h.notMem_reserved m hm

/-- New non-terminals are distinct, each is named after an old one, and none of
them was declared before. -/
structure Grammar.Extension.Sound (g : Grammar) (voc : Grammar.Extension) : Prop where
  declarable : Declarable voc.nonTerminals
  sublist : g.nonTerminals.Sublist voc.nonTerminals
  mem_nonTerminals_iff : ∀ n, n ∈ voc.nonTerminals ↔ n ∈ g.nonTerminals ∨ n ∈ voc.primes.map (·.2)
  mem_taken : ∀ n, n ∈ g.nonTerminals ∨ n ∈ g.terminals ∨ n ∈ voc.primes.map (·.2) → n ∈ voc.taken
  notMem : ∀ n ∈ voc.primes.map (·.2), n ∉ g.nonTerminals ∧ n ∉ g.terminals
  nodup : (voc.primes.map (·.2)).Nodup
  primed : ∀ e ∈ voc.primes, e.1 ∈ g.nonTerminals ∧ ∃ k, e.2 = prime^[k + 1] e.1

namespace Grammar

variable {g : Grammar} {policy : CollisionPolicy}

theorem sound_unextended (hn : g.Named) : Extension.Sound g g.unextended := by
  refine ⟨hn.nonTerminals, .refl _, ?_, ?_, ?_, ?_, ?_⟩
  · simp [unextended]
  · simp [unextended]
  · simp [unextended]
  · exact List.nodup_nil
  · simp [unextended]

theorem Extension.Sound.mem_of_mem {voc : Extension} (h : Extension.Sound g voc) {n : String}
    (hn : n ∈ g.nonTerminals) : n ∈ voc.nonTerminals :=
  (h.mem_nonTerminals_iff n).2 (.inl hn)

theorem Extension.Sound.mem_of_new {voc : Extension} (h : Extension.Sound g voc) {n : String}
    (hn : n ∈ voc.primes.map (·.2)) : n ∈ voc.nonTerminals :=
  (h.mem_nonTerminals_iff n).2 (.inr hn)

theorem Extension.Sound.ne_epsilonName {voc : Extension} (h : Extension.Sound g voc) {n : String}
    (hn : n ∈ voc.primes.map (·.2)) : n ≠ epsilonName :=
  h.declarable.ne_epsilonName (h.mem_of_new hn)

/-- Apart from their order, the non-terminals are the old ones and the new
ones. -/
theorem Extension.Sound.perm {voc : Extension} (h : Extension.Sound g voc) :
    voc.nonTerminals.Perm (g.nonTerminals ++ voc.primes.map (·.2)) := by
  have hold : g.nonTerminals.Nodup := h.sublist.nodup h.declarable.nodup
  refine (List.perm_ext_iff_of_nodup h.declarable.nodup ?_).2 fun n => ?_
  · rw [List.nodup_append]
    refine ⟨hold, h.nodup, ?_⟩
    rintro n hn _ hm rfl
    exact (h.notMem n hm).1 hn
  · rw [List.mem_append]
    exact h.mem_nonTerminals_iff n

/-- A declared name becomes a non-terminal only if it was one. -/
theorem Extension.Sound.notMem_of_declared {voc : Extension} (h : Extension.Sound g voc)
    {n : String} (hd : n ∈ g.nonTerminals ∨ n ∈ g.terminals) (hn : n ∉ g.nonTerminals) :
    n ∉ voc.nonTerminals := by
  intro hm
  rcases (h.mem_nonTerminals_iff n).1 hm with hm | hm
  · exact hn hm
  · exact hd.elim (h.notMem n hm).1 (h.notMem n hm).2

/-- Naming one more non-terminal after a declared one. -/
theorem Extension.Sound.add {voc : Extension} (h : Extension.Sound g voc) (hn : g.Named)
    {a n : String} (ha : a ∈ g.nonTerminals) (hf : g.freshName policy voc.taken a = .ok n) :
    Extension.Sound g ⟨insertAfter a n voc.nonTerminals, n :: voc.taken,
      voc.primes ++ [(a, n)]⟩ := by
  obtain ⟨hfree, k, hk⟩ := freshName_spec hf
  have hfresh : n ∉ g.nonTerminals ∧ n ∉ g.terminals ∧ n ∉ voc.primes.map (·.2) :=
    ⟨fun hm => hfree (h.mem_taken n (.inl hm)), fun hm => hfree (h.mem_taken n (.inr (.inl hm))),
      fun hm => hfree (h.mem_taken n (.inr (.inr hm)))⟩
  have hunused : n ∉ voc.nonTerminals := by
    rw [h.mem_nonTerminals_iff, not_or]
    exact ⟨hfresh.1, hfresh.2.2⟩
  obtain ⟨htrim, hne, hres⟩ := iterate_prime_declarable k (hn.nonTerminals.trim_eq a ha)
    (hn.nonTerminals.ne_empty a ha)
  rw [← hk] at htrim hne hres
  have hprimes : (voc.primes ++ [(a, n)]).map (·.2) = voc.primes.map (·.2) ++ [n] := by simp
  refine ⟨declarable_insertAfter h.declarable hunused htrim hne hres a,
    h.sublist.trans (sublist_insertAfter a n voc.nonTerminals), ?_, ?_, ?_, ?_, ?_⟩
  · intro m
    rw [mem_insertAfter, h.mem_nonTerminals_iff, hprimes, List.mem_append, List.mem_singleton]
    rw [or_comm, or_assoc]
  · intro m hm
    rw [hprimes, List.mem_append, List.mem_singleton] at hm
    rw [List.mem_cons]
    rcases hm with hm | hm | hm | hm
    · exact .inr (h.mem_taken m (.inl hm))
    · exact .inr (h.mem_taken m (.inr (.inl hm)))
    · exact .inr (h.mem_taken m (.inr (.inr hm)))
    · exact .inl hm
  · intro m hm
    rw [hprimes, List.mem_append, List.mem_singleton] at hm
    rcases hm with hm | rfl
    · exact h.notMem m hm
    · exact ⟨hfresh.1, hfresh.2.1⟩
  · rw [hprimes, List.nodup_append]
    refine ⟨h.nodup, List.nodup_singleton n, ?_⟩
    rintro m hm _ hn' rfl
    rw [List.mem_singleton.1 hn'] at hm
    exact hfresh.2.2 hm
  · intro e he
    rcases List.mem_append.1 he with he | he
    · exact h.primed e he
    · obtain rfl := List.mem_singleton.1 he
      exact ⟨ha, k, by rw [Function.iterate_succ_apply]; exact hk⟩

end Grammar

end PredictiveParsing
