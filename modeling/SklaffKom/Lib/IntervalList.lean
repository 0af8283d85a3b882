import Mathlib

/-!
# Lists of integer intervals

A set of integers kept as a list of closed intervals.  The list is canonical when every interval is
non-empty, the intervals increase, and at least one number lies between two neighbours; then each
set has one list, and the list splits around any number it does not cover.
-/

/-- A closed interval of integers. -/
structure IntRange where
  lo : Int
  hi : Int
deriving DecidableEq, Repr

namespace IntervalList

/-- Some interval of the list holds `n`. -/
def Covers (l : List IntRange) (n : Int) : Prop := ∃ i ∈ l, i.lo ≤ n ∧ n ≤ i.hi

instance (l : List IntRange) (n : Int) : Decidable (Covers l n) :=
  inferInstanceAs (Decidable (∃ i ∈ l, i.lo ≤ n ∧ n ≤ i.hi))

/-- The integers a list stands for. -/
def cover (l : List IntRange) : Set Int := {n | Covers l n}

def highest : List IntRange → Int
  | [] => 0
  | [i] => i.hi
  | _ :: j :: l => highest (j :: l)

/-- Non-empty intervals in increasing order, with a number between any two of them. -/
def Canonical (l : List IntRange) : Prop :=
  (∀ i ∈ l, i.lo ≤ i.hi) ∧ l.Pairwise fun a b => a.hi + 1 < b.lo

instance (l : List IntRange) : Decidable (Canonical l) :=
  inferInstanceAs (Decidable (_ ∧ _))

@[simp] theorem covers_nil (n : Int) : ¬ Covers [] n := by simp [Covers]

@[simp] theorem covers_cons {i : IntRange} {l : List IntRange} {n : Int} :
    Covers (i :: l) n ↔ (i.lo ≤ n ∧ n ≤ i.hi) ∨ Covers l n := by
  simp [Covers]

@[simp] theorem covers_append {a b : List IntRange} {n : Int} :
    Covers (a ++ b) n ↔ Covers a n ∨ Covers b n := by
  simp only [Covers, List.mem_append, or_and_right, exists_or]

@[simp] theorem mem_cover {l : List IntRange} {n : Int} : n ∈ cover l ↔ Covers l n := Iff.rfl

@[simp] theorem canonical_nil : Canonical [] := by simp [Canonical]

theorem canonical_cons {i : IntRange} {l : List IntRange} :
    Canonical (i :: l) ↔ i.lo ≤ i.hi ∧ (∀ j ∈ l, i.hi + 1 < j.lo) ∧ Canonical l := by
  simp only [Canonical, List.forall_mem_cons, List.pairwise_cons]
  tauto

theorem canonical_append {a b : List IntRange} :
    Canonical (a ++ b) ↔
      Canonical a ∧ Canonical b ∧ ∀ i ∈ a, ∀ j ∈ b, i.hi + 1 < j.lo := by
  simp only [Canonical, List.forall_mem_append, List.pairwise_append]
  tauto

theorem canonical_singleton {i : IntRange} : Canonical [i] ↔ i.lo ≤ i.hi := by
  simp [canonical_cons]

/-- One interval between a list below it and a list above it. -/
theorem Canonical.splice {a b : List IntRange} {u v : Int} (ha : Canonical a) (hb : Canonical b)
    (huv : u ≤ v) (hau : ∀ i ∈ a, i.hi + 1 < u) (hbv : ∀ i ∈ b, v + 1 < i.lo) :
    Canonical (a ++ ⟨u, v⟩ :: b) := by
  rw [canonical_append, canonical_cons]
  refine ⟨ha, ⟨huv, hbv, hb⟩, ?_⟩
  intro i hi j hj
  have hiu := hau i hi
  rcases List.mem_cons.mp hj with rfl | hj
  · exact hiu
  · have := hbv j hj
    omega

theorem Canonical.lo_le_hi {l : List IntRange} (h : Canonical l) {i : IntRange} (hi : i ∈ l) :
    i.lo ≤ i.hi := h.1 i hi

/-- A number outside a canonical list cuts it into the intervals below and those above. -/
theorem Canonical.exists_split {l : List IntRange} (h : Canonical l) {n : Int}
    (hn : ¬ Covers l n) :
    ∃ a b, l = a ++ b ∧ (∀ i ∈ a, i.hi < n) ∧ ∀ i ∈ b, n < i.lo := by
  induction l with
  | nil => exact ⟨[], [], rfl, by simp, by simp⟩
  | cons i l ih =>
    obtain ⟨hi, hlt, hl⟩ := canonical_cons.mp h
    rw [covers_cons, not_or] at hn
    by_cases hlo : n < i.lo
    · refine ⟨[], i :: l, rfl, by simp, ?_⟩
      intro j hj
      rcases List.mem_cons.mp hj with rfl | hj
      · exact hlo
      · have := hlt j hj
        omega
    · obtain ⟨a, b, rfl, ha, hb⟩ := ih hl hn.2
      refine ⟨i :: a, b, rfl, ?_, hb⟩
      intro j hj
      rcases List.mem_cons.mp hj with rfl | hj
      · have := hn.1
        omega
      · exact ha j hj

/-- Below a number, at most the last interval touches it. -/
theorem Canonical.below_cases {a : List IntRange} (h : Canonical a) {n : Int}
    (ha : ∀ i ∈ a, i.hi < n) :
    (∀ i ∈ a, i.hi + 1 < n) ∨
      ∃ a' x, a = a' ++ [x] ∧ x.hi + 1 = n ∧ ∀ i ∈ a', i.hi + 1 < n := by
  rcases List.eq_nil_or_concat' a with rfl | ⟨a', x, rfl⟩
  · exact Or.inl (by simp)
  · obtain ⟨-, hx, hax⟩ := canonical_append.mp h
    have hxx := canonical_singleton.mp hx
    have hlt := ha x (by simp)
    have ha' : ∀ i ∈ a', i.hi + 1 < n := by
      intro i hi
      have := hax i hi x (by simp)
      omega
    by_cases hxn : x.hi + 1 = n
    · exact Or.inr ⟨a', x, rfl, hxn, ha'⟩
    · refine Or.inl fun i hi => ?_
      rcases List.mem_append.mp hi with hi | hi
      · exact ha' i hi
      · rw [List.mem_singleton.mp hi]
        omega

/-- Above a number, at most the first interval touches it. -/
theorem Canonical.above_cases {b : List IntRange} (h : Canonical b) {n : Int}
    (hb : ∀ i ∈ b, n < i.lo) :
    (∀ i ∈ b, n + 1 < i.lo) ∨
      ∃ y b', b = y :: b' ∧ y.lo = n + 1 ∧ ∀ i ∈ b', n + 1 < i.lo := by
  cases b with
  | nil => exact Or.inl (by simp)
  | cons y b' =>
    obtain ⟨hy, hyb, -⟩ := canonical_cons.mp h
    have hlt := hb y List.mem_cons_self
    have hb' : ∀ i ∈ b', n + 1 < i.lo := by
      intro i hi
      have := hyb i hi
      omega
    by_cases hyn : y.lo = n + 1
    · exact Or.inr ⟨y, b', rfl, hyn, hb'⟩
    · refine Or.inl fun i hi => ?_
      rcases List.mem_cons.mp hi with rfl | hi
      · omega
      · exact hb' i hi

/-- No number below the first interval is covered. -/
theorem Canonical.not_covers_of_lt {i : IntRange} {l : List IntRange} (h : Canonical (i :: l))
    {n : Int} (hn : n < i.lo) : ¬ Covers (i :: l) n := by
  obtain ⟨hi, hlt, -⟩ := canonical_cons.mp h
  rintro ⟨j, hj, hjl, hju⟩
  rcases List.mem_cons.mp hj with rfl | hj
  · omega
  · have := hlt j hj
    omega

/-- The number after the first interval is not covered. -/
theorem Canonical.not_covers_succ {i : IntRange} {l : List IntRange} (h : Canonical (i :: l)) :
    ¬ Covers (i :: l) (i.hi + 1) := by
  obtain ⟨hi, hlt, -⟩ := canonical_cons.mp h
  rintro ⟨j, hj, hjl, hju⟩
  rcases List.mem_cons.mp hj with rfl | hj
  · omega
  · have := hlt j hj
    omega

theorem Canonical.covers_highest {i : IntRange} {l : List IntRange} (h : Canonical (i :: l)) :
    Covers (i :: l) (highest (i :: l)) := by
  induction l generalizing i with
  | nil => exact covers_cons.mpr (Or.inl ⟨(canonical_cons.mp h).1, le_rfl⟩)
  | cons j l ih => exact covers_cons.mpr (Or.inr (ih (canonical_cons.mp h).2.2))

/-- Every covered number is below the end of the last interval. -/
theorem Canonical.le_highest {l : List IntRange} (h : Canonical l) {n : Int} (hn : Covers l n) :
    n ≤ highest l := by
  induction l generalizing n with
  | nil => exact absurd hn (covers_nil n)
  | cons i l ih =>
    obtain ⟨hi, hlt, hl⟩ := canonical_cons.mp h
    cases l with
    | nil =>
      rcases covers_cons.mp hn with hn | hn
      · exact hn.2
      · exact absurd hn (covers_nil n)
    | cons j l =>
      unfold highest
      rcases covers_cons.mp hn with hn | hn
      · have hj := hlt j List.mem_cons_self
        have hjc : Covers (j :: l) j.lo :=
          covers_cons.mpr (Or.inl ⟨le_rfl, hl.lo_le_hi List.mem_cons_self⟩)
        have := ih hl hjc
        omega
      · exact ih hl hn

/-- A canonical list is determined by the integers it covers. -/
theorem Canonical.ext {l m : List IntRange} (hl : Canonical l) (hm : Canonical m)
    (h : ∀ n, Covers l n ↔ Covers m n) : l = m := by
  induction l generalizing m with
  | nil =>
    cases m with
    | nil => rfl
    | cons j m =>
      have hj := (canonical_cons.mp hm).1
      exact absurd ((h j.lo).mpr (covers_cons.mpr (Or.inl ⟨le_rfl, hj⟩))) (by simp)
  | cons i l ih =>
    obtain ⟨hi, hil, hl'⟩ := canonical_cons.mp hl
    cases m with
    | nil => exact absurd ((h i.lo).mp (covers_cons.mpr (Or.inl ⟨le_rfl, hi⟩))) (by simp)
    | cons j m =>
      obtain ⟨hj, hjm, hm'⟩ := canonical_cons.mp hm
      -- both first intervals begin at the least covered number
      have hlo : i.lo = j.lo := by
        have h1 : ¬ i.lo < j.lo := fun hlt =>
          hm.not_covers_of_lt hlt ((h i.lo).mp (covers_cons.mpr (Or.inl ⟨le_rfl, hi⟩)))
        have h2 : ¬ j.lo < i.lo := fun hlt =>
          hl.not_covers_of_lt hlt ((h j.lo).mpr (covers_cons.mpr (Or.inl ⟨le_rfl, hj⟩)))
        omega
      -- and end before the least number above it that is not covered
      have hhi : i.hi = j.hi := by
        have h1 : ¬ i.hi < j.hi := fun hlt =>
          hl.not_covers_succ ((h _).mpr (covers_cons.mpr (Or.inl ⟨by omega, by omega⟩)))
        have h2 : ¬ j.hi < i.hi := fun hlt =>
          hm.not_covers_succ ((h _).mp (covers_cons.mpr (Or.inl ⟨by omega, by omega⟩)))
        omega
      have hij : i = j := by
        cases i
        cases j
        simp_all
      subst hij
      congr 1
      refine ih hl' hm' fun n => ?_
      have hn := h n
      rw [covers_cons, covers_cons] at hn
      have hleft : Covers l n → ¬ (i.lo ≤ n ∧ n ≤ i.hi) := by
        rintro ⟨k, hk, hkl, -⟩ ⟨-, hu⟩
        have := hil k hk
        omega
      have hright : Covers m n → ¬ (i.lo ≤ n ∧ n ≤ i.hi) := by
        rintro ⟨k, hk, hkl, -⟩ ⟨-, hu⟩
        have := hjm k hk
        omega
      tauto

/-! ## Counting -/

/-- How many integers a list stands for, counted interval by interval. -/
def total (l : List IntRange) : Int := (l.map fun i => i.hi - i.lo + 1).sum

theorem cover_cons (i : IntRange) (l : List IntRange) :
    cover (i :: l) = Set.Icc i.lo i.hi ∪ cover l := by
  ext n
  simp only [mem_cover, covers_cons, Set.mem_union, Set.mem_Icc]

theorem finite_cover (l : List IntRange) : (cover l).Finite := by
  induction l with
  | nil => simp [cover]
  | cons i l ih =>
    rw [cover_cons]
    exact (Set.finite_Icc _ _).union ih

theorem ncard_Icc (a b : Int) : (Set.Icc a b).ncard = (b + 1 - a).toNat := by
  rw [← Finset.coe_Icc, Set.ncard_coe_finset, Int.card_Icc]

theorem Canonical.ncard_cover {l : List IntRange} (h : Canonical l) :
    ((cover l).ncard : Int) = total l := by
  induction l with
  | nil => simp [cover, total]
  | cons i l ih =>
    obtain ⟨hi, hlt, hl⟩ := canonical_cons.mp h
    have hdisj : Disjoint (Set.Icc i.lo i.hi) (cover l) := by
      rw [Set.disjoint_left]
      rintro n ⟨-, hn⟩ ⟨j, hj, hlo, -⟩
      have := hlt j hj
      omega
    rw [cover_cons, Set.ncard_union_eq hdisj (Set.finite_Icc _ _) (finite_cover l), ncard_Icc,
      Nat.cast_add, ih hl]
    simp only [total, List.map_cons, List.sum_cons]
    omega

/-- What the list leaves of `1..last`. -/
theorem Canonical.ncard_sdiff {l : List IntRange} (h : Canonical l) {last : Int} (hlast : 0 ≤ last)
    (hin : cover l ⊆ Set.Icc 1 last) :
    ((Set.Icc 1 last \ cover l).ncard : Int) = last - total l := by
  have hsum := Set.ncard_sdiff_add_ncard_of_subset hin (Set.finite_Icc 1 last)
  rw [ncard_Icc] at hsum
  rw [← h.ncard_cover]
  omega

end IntervalList
