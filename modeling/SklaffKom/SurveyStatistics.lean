import SklaffKom.Lib.Binary64
import Mathlib.Data.List.Sort
import Mathlib.Data.List.GetD
import Mathlib.Data.List.Forall2
import Mathlib.Data.List.Perm.Basic

/-!
# The number statistics of a survey

For a number or an interval question `show_survey_result` sorts the answers, prints them in this order
and takes the median from the middle.  The array holds doubles, and `repbufcompare` compares the `int`
at the start of each.
-/

open Binary64

namespace SklaffKom

/-- `*(const int *) a`: the first four bytes of a double, which hold its low word. -/
def readInt (d : BitVec 64) : Int := (d.setWidth 32).toInt

def repbufcompare (a b : BitVec 64) : Int :=
  let r1 := readInt a
  let r2 := readInt b
  if r1 > r2 then 1 else if r1 < r2 then -1 else 0

/-- What `qsort` may leave in the array. -/
structure Qsorted (compare : BitVec 64 → BitVec 64 → Int) (before after : List (BitVec 64)) : Prop where
  perm : after.Perm before
  sorted : after.Pairwise fun a b => compare a b ≤ 0

structure NumberStatistics where
  answers : List ℚ
  median : ℚ
deriving DecidableEq

/-- The number in the middle of an array, or that halfway between the two in the middle. -/
def middle (nalt : Nat) (number : Nat → ℚ) : ℚ :=
  if nalt % 2 = 0 then (number (nalt / 2) + number (nalt / 2 - 1)) / 2 else number ((nalt - 1) / 2)

/-- What `show_survey_result` prints of the sorted array. -/
def showNumbers (repbufd : List (BitVec 64)) : NumberStatistics where
  answers := repbufd.map value
  median := middle repbufd.length fun i => value (repbufd.getD i 0)

/-- The double of a whole number. -/
def wholeDouble (x : Int) : BitVec 64 := ofDyadic x 0

def median (xs : List Int) : ℚ :=
  middle xs.length fun i => ((xs.mergeSort (· ≤ ·)).getD i 0 : Int)

/-- However `qsort` sorts the answers by `repbufcompare`, they are printed in ascending order, and with
their median. -/
def StatisticsRight (xs : List Int) : Prop :=
  ∀ repbufd, Qsorted repbufcompare (xs.map wholeDouble) repbufd →
    (showNumbers repbufd).answers.Pairwise (· ≤ ·) ∧ (showNumbers repbufd).median = median xs

/-- A smaller answer has a smaller low word. -/
def LowWordsAscend (xs : List Int) : Prop :=
  ∀ x ∈ xs, ∀ y ∈ xs, x < y → readInt (wholeDouble x) < readInt (wholeDouble y)

theorem value_wholeDouble {x : Int} (h : x.natAbs < 2 ^ 31) : value (wholeDouble x) = x := by
  unfold wholeDouble
  rw [value_ofDyadic (by omega) (by decide) (by decide), zpow_zero, mul_one]

/-- The sum of two answers and its half are doubles, so that the median is not rounded. -/
theorem median_exact {x y : Int} (hx : x.natAbs < 2 ^ 31) (hy : y.natAbs < 2 ^ 31) :
    value (ofDyadic (x + y) 0) = (x : ℚ) + y ∧ value (ofDyadic (x + y) (-1)) = ((x : ℚ) + y) / 2 := by
  rw [value_ofDyadic (by omega) (by decide) (by decide), value_ofDyadic (by omega) (by decide) (by decide),
    Int.cast_add, zpow_zero, mul_one, zpow_neg_one, div_eq_mul_inv]
  exact ⟨rfl, rfl⟩

theorem repbufcompare_le (a b : BitVec 64) : repbufcompare a b ≤ 0 ↔ readInt a ≤ readInt b := by
  unfold repbufcompare
  dsimp only
  split
  · omega
  · split <;> omega

/-- The sorted array holds the doubles of the answers in some order. -/
theorem Qsorted.answers {xs : List Int} {repbufd : List (BitVec 64)}
    (h : Qsorted repbufcompare (xs.map wholeDouble) repbufd) :
    ∃ zs : List Int, zs.Perm xs ∧ repbufd = zs.map wholeDouble := by
  have hall : List.Forall₂ (fun d x => d = wholeDouble x) (xs.map wholeDouble) xs := by
    rw [List.forall₂_map_left_iff, List.forall₂_same]
    exact fun _ _ => rfl
  obtain ⟨zs, hzs, hperm⟩ := List.perm_comp_forall₂ h.perm hall
  refine ⟨zs, hperm, ?_⟩
  clear h hall hperm
  induction hzs with
  | nil => rfl
  | cons hd _ ih => rw [List.map_cons, ← hd, ← ih]

/-- Answers in ascending order are the sorted list. -/
theorem eq_mergeSort {zs xs : List Int} (hperm : zs.Perm xs) (hsorted : zs.Pairwise (· ≤ ·)) :
    zs = xs.mergeSort (· ≤ ·) := by
  apply (hperm.trans (List.mergeSort_perm xs _).symm).eq_of_pairwise' hsorted
  exact List.pairwise_mergeSort' _ xs

theorem map_value {zs : List Int} (h : ∀ z ∈ zs, z.natAbs < 2 ^ 31) :
    (zs.map wholeDouble).map value = zs.map ((↑) : Int → ℚ) := by
  rw [List.map_map, List.map_inj_left]
  exact fun z hz => value_wholeDouble (h z hz)

/-- The median of the printed numbers. -/
theorem median_showNumbers {zs xs : List Int} (h : ∀ z ∈ zs, z.natAbs < 2 ^ 31)
    (heq : zs = xs.mergeSort (· ≤ ·)) : (showNumbers (zs.map wholeDouble)).median = median xs := by
  have hnumber : ∀ i, value ((zs.map wholeDouble).getD i 0) = ((zs.getD i 0 : Int) : ℚ) := by
    intro i
    have hzero : (0 : BitVec 64) = wholeDouble 0 := rfl
    rw [hzero, List.getD_map]
    by_cases hi : i < zs.length
    · apply value_wholeDouble
      rw [List.getD_eq_getElem _ _ hi]
      exact h _ (List.getElem_mem hi)
    · rw [List.getD_eq_default _ _ (by omega)]
      exact value_wholeDouble (by decide)
  have hlen : zs.length = xs.length := by rw [heq, List.length_mergeSort]
  unfold showNumbers median
  dsimp only
  rw [List.length_map, hlen, ← heq]
  simp only [hnumber]

/-- Two answers that `repbufcompare` does not put in order can stay in the wrong one. -/
theorem exists_unordered {xs : List Int} {x y : Int} (hx : x ∈ xs) (hy : y ∈ xs) (hne : x ≠ y)
    (hle : readInt (wholeDouble y) ≤ readInt (wholeDouble x)) :
    ∃ repbufd, Qsorted repbufcompare (xs.map wholeDouble) repbufd ∧
      [wholeDouble y, wholeDouble x].Sublist repbufd := by
  let before := y :: x :: (xs.erase y).erase x
  let le := fun a b : BitVec 64 => decide (readInt a ≤ readInt b)
  have hbefore : before.Perm xs := by
    have hx' : x ∈ xs.erase y := (List.mem_erase_of_ne hne).mpr hx
    exact ((List.perm_cons_erase hx').symm.cons y).trans (List.perm_cons_erase hy).symm
  have htrans : ∀ a b c, le a b → le b c → le a c := by
    intro a b c hab hbc
    simp only [le, decide_eq_true_eq] at *
    omega
  have htotal : ∀ a b, (le a b || le b a) = true := by
    intro a b
    simp only [le, Bool.or_eq_true, decide_eq_true_eq]
    omega
  refine ⟨(before.map wholeDouble).mergeSort le, ⟨?_, ?_⟩, ?_⟩
  · exact (List.mergeSort_perm _ _).trans (hbefore.map _)
  · apply (List.pairwise_mergeSort htrans htotal _).imp
    intro a b hab
    rw [repbufcompare_le]
    simpa [le] using hab
  · apply List.pair_sublist_mergeSort htrans htotal
    · simpa [le] using hle
    · simp [before]

/-- The statistics are right exactly when smaller answers have smaller low words. -/
theorem statisticsRight_iff {xs : List Int} (h : ∀ x ∈ xs, x.natAbs < 2 ^ 31) :
    StatisticsRight xs ↔ LowWordsAscend xs := by
  constructor
  · intro hright x hx y hy hlt
    by_contra hle
    obtain ⟨repbufd, hsorted, hpair⟩ := exists_unordered hx hy (by omega) (by omega)
    have hascend := (hright repbufd hsorted).1.sublist (hpair.map value)
    rw [List.map_cons, List.map_singleton, List.pairwise_pair, value_wholeDouble (h y hy),
      value_wholeDouble (h x hx), Int.cast_le] at hascend
    omega
  · intro hwords repbufd hsorted
    obtain ⟨zs, hperm, rfl⟩ := hsorted.answers
    have hmem : ∀ z ∈ zs, z ∈ xs := fun z hz => hperm.mem_iff.mp hz
    have hsize : ∀ z ∈ zs, z.natAbs < 2 ^ 31 := fun z hz => h z (hmem z hz)
    have hascend : zs.Pairwise (· ≤ ·) := by
      have hcompare := List.pairwise_map.mp hsorted.sorted
      apply hcompare.imp_of_mem
      intro a b ha hb hab
      rw [repbufcompare_le] at hab
      -- a larger answer first would have a larger low word
      by_contra hgt
      have hlt := hwords b (hmem b hb) a (hmem a ha) (by omega)
      omega
    refine ⟨?_, median_showNumbers hsize (eq_mergeSort hperm hascend)⟩
    unfold showNumbers
    dsimp only
    rw [map_value hsize, List.pairwise_map]
    exact hascend.imp fun hab => Int.cast_le.mpr hab

theorem readInt_small {x : Int} (h : x.natAbs < 2 ^ 21) : readInt (wholeDouble x) = 0 := by
  unfold readInt wholeDouble
  rw [setWidth_ofDyadic h (by decide) (by decide)]
  rfl

/-- For answers of at most 21 bits the statistics are only right when all answers are the same. -/
theorem statisticsRight_small {xs : List Int} (h : ∀ x ∈ xs, x.natAbs < 2 ^ 21) :
    StatisticsRight xs ↔ ∀ x ∈ xs, ∀ y ∈ xs, x = y := by
  rw [statisticsRight_iff fun x hx => (h x hx).trans (by decide)]
  unfold LowWordsAscend
  constructor
  · intro hwords x hx y hy
    have hxy := hwords x hx y hy
    have hyx := hwords y hy x hx
    rw [readInt_small (h x hx), readInt_small (h y hy)] at hxy hyx
    omega
  · intro hsame x hx y hy hlt
    have heq := hsame x hx y hy
    omega

/-- Answers of 31 bits whose low words are in their order. -/
theorem statisticsRight_large : StatisticsRight [1073741827, 1073741825, 1073741826, 1073741825] := by
  refine (statisticsRight_iff (by decide)).mpr ?_
  unfold LowWordsAscend
  decide +kernel

/-- All small numbers compare as equal, so that the array may stay as it is. -/
theorem statistics_unsorted :
    ∃ xs : List Int, (∀ x ∈ xs, x.natAbs < 2 ^ 31) ∧
      Qsorted repbufcompare (xs.map wholeDouble) (xs.map wholeDouble) ∧
      showNumbers (xs.map wholeDouble) = ⟨[3, 1, 2], 1⟩ ∧ median xs = 2 ∧ ¬ StatisticsRight xs := by
  have hsmall : ∀ x ∈ [(3 : Int), 1, 2], x.natAbs < 2 ^ 21 := by decide
  have hsize : ∀ x ∈ [(3 : Int), 1, 2], x.natAbs < 2 ^ 31 := fun x hx => (hsmall x hx).trans (by decide)
  refine ⟨[3, 1, 2], hsize, ⟨List.Perm.refl _, ?_⟩, ?_, ?_, ?_⟩
  · rw [List.pairwise_map]
    apply List.pairwise_of_forall_mem_list
    intro a ha b hb
    rw [repbufcompare_le, readInt_small (hsmall a ha), readInt_small (hsmall b hb)]
  · have hanswers := map_value hsize
    have h1 : value (wholeDouble 1) = 1 := value_wholeDouble (by decide)
    unfold showNumbers
    rw [hanswers]
    simp [middle, h1]
  · have hperm : [(1 : Int), 2, 3].Perm [3, 1, 2] := by decide
    have hsorted := eq_mergeSort hperm (by decide)
    unfold median
    rw [← hsorted]
    simp [middle]
  · rw [statisticsRight_small hsmall]
    decide

end SklaffKom
