import SklaffKom.NextText
import Mathlib.Order.Bounds.Basic

/-!
# The first text of a conference

`first_text` halves the interval `1..last_text` as if the missing texts were exactly those below the
first one.  Where texts are missing in between it looks at up to three numbers below the middle
before it gives up the lower half, so that only four missing numbers in a row mislead it.
`first_news` is the same search in a spool.
-/

namespace SklaffKom

/-- `first`, `last` and `ptr` after one round of the loop of `first_text`. -/
def firstTextRound (fileExists : Int → Bool) (first last : Int) : Int × Int × Int :=
  let ptr := (first + last) / 2
  if fileExists ptr then (first, ptr, ptr)
  else if fileExists (ptr - 1) then (first, ptr - 1, ptr - 1)
  else if fileExists (ptr - 2) then (first, ptr - 2, ptr - 2)
  else if fileExists (ptr - 3) then (first, ptr - 3, ptr - 3)
  else (ptr + 1, last, ptr + 1)

/-- The loop ends with `r`: it leaves `while (last > first)` after finitely many rounds. -/
inductive FirstTextRun (fileExists : Int → Bool) : Int → Int → Int → Int → Prop
  | stop {first last ptr : Int} (hstop : ¬ last > first) :
      FirstTextRun fileExists first last ptr ptr
  | round {first last ptr r : Int} (hgo : last > first)
      (hrest : FirstTextRun fileExists (firstTextRound fileExists first last).1
        (firstTextRound fileExists first last).2.1 (firstTextRound fileExists first last).2.2 r) :
      FirstTextRun fileExists first last ptr r

/-- Among any four consecutive numbers from `m` to `last` there is one that has a file. -/
def NoLongGap (fileExists : Int → Bool) (m last : Int) : Prop :=
  ∀ k, m ≤ k → k + 3 ≤ last → ∃ j, k ≤ j ∧ j ≤ k + 3 ∧ fileExists j = true

/-! ## One round -/

section Round

variable {ex : Int → Bool} {first last ptr r : Int}

theorem firstTextLoop_succ (fuel : Nat) :
    firstTextLoop ex (fuel + 1) first last ptr =
      if last > first then
        firstTextLoop ex fuel (firstTextRound ex first last).1 (firstTextRound ex first last).2.1
          (firstTextRound ex first last).2.2
      else ptr := by
  rw [firstTextLoop]
  apply if_congr Iff.rfl ?_ rfl
  unfold firstTextRound
  dsimp only
  split
  · rfl
  split
  · rfl
  split
  · rfl
  split
  · rfl
  · rfl

/-- Either `last` moves down to an existing number, the middle or at most three below it, or none of
these exists and `first` moves up behind the middle. -/
theorem firstTextRound_cases (ex : Int → Bool) (hgo : last > first) :
    (∃ p, ex p = true ∧ p < last ∧ firstTextRound ex first last = (first, p, p)) ∨
      ∃ mid, first ≤ mid ∧ mid < last ∧
        (∀ j, mid - 3 ≤ j → j ≤ mid → ex j ≠ true) ∧
        firstTextRound ex first last = (mid + 1, last, mid + 1) := by
  unfold firstTextRound
  dsimp only
  have hmid : first ≤ (first + last) / 2 ∧ (first + last) / 2 < last := by omega
  generalize (first + last) / 2 = mid at hmid ⊢
  split
  next h0 => exact Or.inl ⟨mid, h0, by omega, rfl⟩
  split
  next h1 => exact Or.inl ⟨mid - 1, h1, by omega, rfl⟩
  split
  next h2 => exact Or.inl ⟨mid - 2, h2, by omega, rfl⟩
  split
  next h3 => exact Or.inl ⟨mid - 3, h3, by omega, rfl⟩
  next h0 h1 h2 h3 =>
    refine Or.inr ⟨mid, hmid.1, hmid.2, fun j hlow hhigh => ?_, rfl⟩
    have hj : j = mid ∨ j = mid - 1 ∨ j = mid - 2 ∨ j = mid - 3 := by omega
    rcases hj with rfl | rfl | rfl | rfl
    · exact h0
    · exact h1
    · exact h2
    · exact h3

/-- The interval gets shorter with each round. -/
theorem firstTextRound_shorter (ex : Int → Bool) (hgo : last > first) :
    (firstTextRound ex first last).2.1 - (firstTextRound ex first last).1 < last - first := by
  rcases firstTextRound_cases ex hgo with ⟨p, -, hp, heq⟩ | ⟨mid, hlow, -, -, heq⟩
  · rw [heq]
    dsimp only
    omega
  · rw [heq]
    dsimp only
    omega

end Round

/-! ## All rounds -/

section Run

variable {ex : Int → Bool} {first last ptr r : Int}

/-- The loop ends before the fuel does. -/
theorem firstTextLoop_run (fuel : Nat) (hfuel : last - first ≤ fuel) :
    FirstTextRun ex first last ptr (firstTextLoop ex fuel first last ptr) := by
  induction fuel generalizing first last ptr with
  | zero =>
    rw [firstTextLoop]
    exact .stop (by omega)
  | succ fuel ih =>
    rw [firstTextLoop_succ]
    by_cases hgo : last > first
    · rw [if_pos hgo]
      have hshort := firstTextRound_shorter ex hgo
      exact .round hgo (ih (by omega))
    · rw [if_neg hgo]
      exact .stop hgo

/-- The loop ends with `ptr`, with an existing number, or with one between the bounds. -/
theorem FirstTextRun.bounds (hrun : FirstTextRun ex first last ptr r)
    (hex : ∀ n, ex n = true → 1 ≤ n) {top : Int} (hfirst : 1 ≤ first) (hlast : last ≤ top)
    (hptr : 1 ≤ ptr ∧ ptr ≤ top) : 1 ≤ r ∧ r ≤ top := by
  induction hrun with
  | stop _ => exact hptr
  | round hgo _ ih =>
    rcases firstTextRound_cases ex hgo with ⟨p, hp, hlt, heq⟩ | ⟨mid, hlow, hlt, -, heq⟩
    · rw [heq] at ih
      dsimp only at ih
      have := hex p hp
      exact ih hfirst (by omega) (by omega)
    · rw [heq] at ih
      dsimp only at ih
      exact ih (by omega) hlast (by omega)

/-- No existing number below the result is missed: with none below `m` the loop does not end there,
since `last` stops at existing numbers only. -/
theorem FirstTextRun.ge {m : Int} (hrun : FirstTextRun ex first last ptr r)
    (hm : ∀ n, ex n = true → m ≤ n) (hlast : m ≤ last)
    (hptr : last ≤ first → m ≤ ptr) : m ≤ r := by
  induction hrun with
  | stop hstop => exact hptr (by omega)
  | round hgo _ ih =>
    rcases firstTextRound_cases ex hgo with ⟨p, hp, -, heq⟩ | ⟨mid, -, hlt, -, heq⟩
    · rw [heq] at ih
      exact ih (hm p hp) fun _ => hm p hp
    · rw [heq] at ih
      dsimp only at ih
      exact ih hlast (by omega)

/-- The loop ends at the existing number `m` or before it, if no four numbers in a row are missing
from there to the end: `first` moves past four missing numbers only. -/
theorem FirstTextRun.le {m bound : Int} (hrun : FirstTextRun ex first last ptr r)
    (hm : ex m = true) (hgap : NoLongGap ex m bound) (hfirst : first ≤ m) (hbound : last ≤ bound)
    (hptr : ptr = first ∨ ptr = last) : r ≤ m := by
  induction hrun with
  | stop _ => omega
  | round hgo _ ih =>
    rcases firstTextRound_cases ex hgo with ⟨p, -, hp, heq⟩ | ⟨mid, -, hlt, hmiss, heq⟩
    · rw [heq] at ih
      dsimp only at ih
      exact ih hfirst (by omega) (Or.inr rfl)
    · rw [heq] at ih
      have hlow : mid < m := by
        by_contra hle
        have hne : m < mid - 3 := by
          by_contra hnear
          exact hmiss m (by omega) (by omega) hm
        obtain ⟨j, h1, h2, hj⟩ := hgap (mid - 3) (by omega) (by omega)
        exact hmiss j h1 (by omega) hj
      exact ih (by omega) hbound (Or.inl rfl)

end Run

/-! ## The whole search -/

/-- `first_text` ends, with a number in the conference, and it finds the first text where no four
consecutive numbers after it are missing. -/
theorem firstText_least {d : Disk} {conf last : Int}
    (hlast : lastText d.mailbox d.conffile conf = some last)
    (htexts : ∀ n, d.texts conf n → 1 ≤ n ∧ n ≤ last) :
    ∃ r, firstText d conf = some r ∧ FirstTextRun (d.fileExists conf) 1 last 1 r ∧
      1 ≤ r ∧ r ≤ max 1 last ∧
      ∀ m, IsLeast {n | d.texts conf n} m → NoLongGap (d.fileExists conf) m last → r = m := by
  have hrun : FirstTextRun (d.fileExists conf) 1 last 1
      (firstTextLoop (d.fileExists conf) last.toNat 1 last 1) :=
    firstTextLoop_run _ (by omega)
  refine ⟨_, by rw [firstText, hlast, Option.map_some], hrun, ?_⟩
  have hbounds := hrun.bounds (fun n hn => (htexts n hn).1) le_rfl (le_max_right 1 last)
    ⟨le_rfl, le_max_left 1 last⟩
  refine ⟨hbounds.1, hbounds.2, ?_⟩
  intro m hm hgap
  have hin := htexts m hm.1
  apply le_antisymm
  · exact hrun.le hm.1 hgap hin.1 le_rfl (Or.inl rfl)
  · exact hrun.ge (fun n hn => hm.2 hn) hin.2 (by omega)

theorem firstText_least_shortGapDisk :
    ∃ r, firstText shortGapDisk 1 = some r ∧ FirstTextRun (shortGapDisk.fileExists 1) 1 4 1 r ∧
      1 ≤ r ∧ r ≤ max 1 4 ∧
      ∀ m, IsLeast {n | shortGapDisk.texts 1 n} m → NoLongGap (shortGapDisk.fileExists 1) m 4 →
        r = m := by
  apply firstText_least
  · decide +kernel
  · intro n hn
    have : n = 2 ∨ n = 4 := by simpa [Disk.texts, shortGapDisk] using hn
    omega

end SklaffKom
