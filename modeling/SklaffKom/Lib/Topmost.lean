import Mathlib.Data.Set.Card

/-!
# The highest elements of a finite set

`Topmost k S` holds the `k` greatest elements of `S`, or all of them when there are not so many.  It
is what a walk from above takes that stops after `k` elements.
-/

namespace Topmost

variable {α : Type*} [LinearOrder α]

/-- The elements with less than `k` greater ones. -/
def topmost (k : ℕ) (S : Set α) : Set α := {n | n ∈ S ∧ {m | m ∈ S ∧ n < m}.ncard < k}

variable {k : ℕ} {S : Set α} {a c n : α}

theorem topmost_subset : topmost k S ⊆ S := fun _ h => h.1

@[simp] theorem topmost_zero : topmost 0 S = ∅ := by
  ext n
  simp [topmost]

/-- The greatest element is taken first. -/
theorem topmost_insert (hfin : S.Finite) (ha : ∀ n ∈ S, n < a) :
    topmost (k + 1) (insert a S) = insert a (topmost k S) := by
  ext n
  rw [Set.mem_insert_iff]
  by_cases hn : n = a
  · subst hn
    refine iff_of_true ⟨Set.mem_insert _ _, ?_⟩ (Or.inl rfl)
    have hnone : {m | m ∈ insert n S ∧ n < m} = ∅ := by
      ext m
      refine iff_of_false ?_ (Set.notMem_empty m)
      rintro ⟨hm, hlt⟩
      rcases Set.mem_insert_iff.mp hm with rfl | hm
      · exact lt_irrefl _ hlt
      · exact lt_asymm hlt (ha m hm)
    rw [hnone, Set.ncard_empty]
    exact Nat.succ_pos k
  · have hmem : n ∈ insert a S ↔ n ∈ S := by
      rw [Set.mem_insert_iff, or_iff_right hn]
    rw [topmost, topmost, Set.mem_ofPred_eq, Set.mem_ofPred_eq, hmem, or_iff_right hn]
    refine and_congr_right fun hS => ?_
    have hset : {m | m ∈ insert a S ∧ n < m} = insert a {m | m ∈ S ∧ n < m} := by
      ext m
      by_cases hm : m = a
      · subst hm
        exact iff_of_true ⟨Set.mem_insert _ _, ha n hS⟩ (Set.mem_insert _ _)
      · simp [hm]
    have hout : a ∉ {m | m ∈ S ∧ n < m} := fun h => lt_irrefl a (ha a h.1)
    rw [hset, Set.ncard_insert_of_notMem hout (hfin.subset fun m hm => hm.1)]
    exact Nat.succ_lt_succ_iff

/-- Fewer than all elements are greater than one of them. -/
theorem ncard_above_lt (hfin : S.Finite) (hn : n ∈ S) : {m | m ∈ S ∧ n < m}.ncard < S.ncard := by
  refine Set.ncard_lt_ncard ⟨fun m hm => hm.1, fun h => ?_⟩ hfin
  exact lt_irrefl n (h hn).2

/-- All elements are taken when there are no more than `k`. -/
theorem topmost_eq_self_iff (hfin : S.Finite) : topmost k S = S ↔ S.ncard ≤ k := by
  constructor
  · intro h
    rcases S.eq_empty_or_nonempty with rfl | hne
    · simp
    · -- all but the least element are greater than it
      obtain ⟨n, hn, hmin⟩ := hfin.exists_minimal hne
      have hall : S = insert n {m | m ∈ S ∧ n < m} := by
        ext m
        constructor
        · intro hm
          rcases lt_trichotomy m n with hlt | rfl | hlt
          · exact absurd (hmin hm hlt.le) (not_le_of_gt hlt)
          · exact Set.mem_insert _ _
          · exact Set.mem_insert_of_mem _ ⟨hm, hlt⟩
        · intro hm
          rcases Set.mem_insert_iff.mp hm with rfl | hm
          · exact hn
          · exact hm.1
      rw [← h] at hn
      have hcard : S.ncard = {m | m ∈ S ∧ n < m}.ncard + 1 := by
        conv_lhs => rw [hall]
        exact Set.ncard_insert_of_notMem (fun hm => lt_irrefl n hm.2)
          (hfin.subset fun m hm => hm.1)
      have hlt := hn.2
      omega
  · intro h
    ext n
    constructor
    · exact fun hn => hn.1
    · exact fun hn => ⟨hn, (ncard_above_lt hfin hn).trans_le h⟩

/-- Leaving out what is not greater than `c` changes nothing when it is nothing, or when `k` greater
elements are there. -/
theorem topmost_upper_iff (hfin : S.Finite) :
    topmost k {n | n ∈ S ∧ c < n} = topmost k S ↔
      (∀ n ∈ S, c < n) ∨ k ≤ {n | n ∈ S ∧ c < n}.ncard := by
  have hupper : {n | n ∈ S ∧ c < n}.Finite := hfin.subset fun n hn => hn.1
  have habove : ∀ n, c < n → {m | m ∈ {n | n ∈ S ∧ c < n} ∧ n < m} = {m | m ∈ S ∧ n < m} := by
    intro n hn
    ext m
    exact ⟨fun h => ⟨h.1.1, h.2⟩, fun h => ⟨⟨h.1, hn.trans h.2⟩, h.2⟩⟩
  constructor
  · intro h
    by_contra hno
    rw [not_or, not_forall] at hno
    obtain ⟨⟨x, hx⟩, hlt⟩ := hno
    rw [Classical.not_imp] at hx
    -- the greatest of those left out would have been taken
    obtain ⟨n, hn, hmax⟩ := (hfin.subset fun m (hm : m ∈ {m | m ∈ S ∧ ¬ c < m}) => hm.1).exists_maximal
      ⟨x, hx⟩
    have hcount : {m | m ∈ S ∧ n < m} = {n | n ∈ S ∧ c < n} := by
      ext m
      constructor
      · rintro ⟨hm, hnm⟩
        refine ⟨hm, ?_⟩
        by_contra hc
        exact absurd (hmax ⟨hm, hc⟩ hnm.le) (not_le_of_gt hnm)
      · rintro ⟨hm, hc⟩
        exact ⟨hm, lt_of_le_of_lt (not_lt.mp hn.2) hc⟩
    have hmem : n ∈ topmost k S := ⟨hn.1, by rw [hcount]; omega⟩
    rw [← h] at hmem
    exact hn.2 hmem.1.2
  · rintro (hall | hk)
    · rw [show {n | n ∈ S ∧ c < n} = S from Set.ext fun n => ⟨fun h => h.1, fun h => ⟨h, hall n h⟩⟩]
    · ext n
      constructor
      · rintro ⟨hn, hlt⟩
        rw [habove n hn.2] at hlt
        exact ⟨hn.1, hlt⟩
      · rintro ⟨hn, hlt⟩
        have hc : c < n := by
          by_contra hc
          have hsub : {n | n ∈ S ∧ c < n} ⊆ {m | m ∈ S ∧ n < m} := fun m hm =>
            ⟨hm.1, lt_of_le_of_lt (not_lt.mp hc) hm.2⟩
          have := Set.ncard_le_ncard hsub (hfin.subset fun m hm => hm.1)
          omega
        refine ⟨⟨hn, hc⟩, ?_⟩
        rwa [habove n hc]

end Topmost
