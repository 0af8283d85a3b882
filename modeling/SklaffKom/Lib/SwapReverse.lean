import Mathlib.Data.List.Basic

/-!
# Reversal in place

A list is reversed by swapping its ends, and then what is between them, up to the middle.
-/

namespace SwapReverse

variable {α : Type*}

/-- The list with the values at two places exchanged. -/
def swapAt (l : List α) (i j : Nat) : List α :=
  match l[i]?, l[j]? with
  | some a, some b => (l.set i b).set j a
  | _, _ => l

/-- The list after `k` rounds of `for (i = 0; i < n / 2; i++)`. -/
def swapLoop (l : List α) : Nat → List α
  | 0 => l
  | k + 1 => swapAt (swapLoop l k) k (l.length - 1 - k)

theorem length_swapAt (l : List α) (i j : Nat) : (swapAt l i j).length = l.length := by
  unfold swapAt
  split
  · rw [List.length_set, List.length_set]
  · rfl

theorem length_swapLoop (l : List α) (k : Nat) : (swapLoop l k).length = l.length := by
  induction k with
  | zero => rfl
  | succ k ih => rw [swapLoop, length_swapAt, ih]

theorem getElem?_swapAt {l : List α} {i j : Nat} (hi : i < l.length) (hj : j < l.length) (m : Nat) :
    (swapAt l i j)[m]? = if m = j then l[i]? else if m = i then l[j]? else l[m]? := by
  unfold swapAt
  rw [List.getElem?_eq_getElem hi, List.getElem?_eq_getElem hj]
  show ((l.set i _).set j _)[m]? = _
  rw [List.getElem?_set, List.getElem?_set, List.length_set]
  by_cases hmj : m = j
  · rw [if_pos hmj.symm, if_pos hj, if_pos hmj]
  · rw [if_neg (Ne.symm hmj), if_neg hmj]
    by_cases hmi : m = i
    · rw [if_pos hmi.symm, if_pos hi, if_pos hmi]
    · rw [if_neg (Ne.symm hmi), if_neg hmi]

/-- After `k` rounds the first and the last `k` places are as in the reversed list. -/
theorem getElem?_swapLoop (l : List α) {k : Nat} (hk : k ≤ l.length / 2) {m : Nat}
    (hm : m < l.length) :
    (swapLoop l k)[m]? = if m < k ∨ l.length - k ≤ m then l[l.length - 1 - m]? else l[m]? := by
  induction k generalizing m with
  | zero =>
    rw [if_neg (by omega)]
    rfl
  | succ k ih =>
    have hlen := length_swapLoop l k
    have hk1 : k < l.length := by omega
    have hk2 : l.length - 1 - k < l.length := by omega
    rw [swapLoop, getElem?_swapAt (by omega) (by omega), ih (by omega) hk1, ih (by omega) hk2,
      ih (by omega) hm]
    -- the two places of this round have not been touched before
    by_cases h1 : m = l.length - 1 - k
    · rw [if_pos h1, if_neg (by omega), if_pos (by omega), show l.length - 1 - m = k by omega]
    · rw [if_neg h1]
      by_cases h2 : m = k
      · rw [if_pos h2, if_neg (by omega), if_pos (by omega), h2]
      · rw [if_neg h2]
        by_cases h3 : m < k ∨ l.length - k ≤ m
        · rw [if_pos h3, if_pos (by omega)]
        · rw [if_neg h3, if_neg (by omega)]

/-- The loop up to the middle reverses the list. -/
theorem swapLoop_half (l : List α) : swapLoop l (l.length / 2) = l.reverse := by
  apply List.ext_getElem?
  intro m
  by_cases hm : m < l.length
  · rw [getElem?_swapLoop l (Nat.le_refl _) hm, List.getElem?_reverse hm]
    split
    · rfl
    · -- the middle of a list of odd length
      rw [show l.length - 1 - m = m by omega]
  · rw [List.getElem?_eq_none, List.getElem?_eq_none]
    · rw [List.length_reverse]
      omega
    · rw [length_swapLoop]
      omega

end SwapReverse
