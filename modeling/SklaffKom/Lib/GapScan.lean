import Mathlib

/-!
# Scanning numbered items for the first new one

Items carry the numbers `1..last` and some are missing.  A reader keeps the set of numbers already
seen and looks for the least item outside it; numbers without an item join the set on the way.
From the number after the last seen one the reader may instead jump to an estimate of the first
item.
-/

namespace GapScan

open Set

variable {ex : Int → Prop} {last first h u m : Int} {S T : Set Int} {r : Option Int}

/-- `u` is the least positive number outside `S`. -/
structure Least (S : Set Int) (u : Int) : Prop where
  pos : 1 ≤ u
  notMem : u ∉ S
  below : ∀ n, 1 ≤ n → n < u → n ∈ S

/-- `h` is the greatest number of `S`, or 0 when there is none. -/
structure Top (S : Set Int) (h : Int) : Prop where
  le : ∀ n ∈ S, n ≤ h
  mem : h = 0 ∨ h ∈ S
  pos : ∀ n ∈ S, 1 ≤ n

/-- Below the greatest seen number every new item is missing, and so is the item after it: the
scan then jumps. -/
def Jumps (ex : Int → Prop) (last : Int) (S : Set Int) (h : Int) : Prop :=
  (∀ n, 1 ≤ n → n ≤ h → n ∉ S → ¬ ex n) ∧ h + 1 ≤ last ∧ ¬ ex (h + 1)

open Classical in
/-- Where the scan begins to look at items, `first` being the estimate. -/
noncomputable def start (ex : Int → Prop) (last first : Int) (S : Set Int) (h : Int) : Int :=
  if Jumps ex last S h then max (h + 1) first else 1

/-- The least new item from `s` on. -/
structure Finds (ex : Int → Prop) (last : Int) (S : Set Int) (s m : Int) : Prop where
  ge : s ≤ m
  le : m ≤ last
  notMem : m ∉ S
  item : ex m
  least : ∀ n, s ≤ n → n < m → n ∉ S → ¬ ex n

/-- The end of a scan: the item found, if any, and the seen numbers afterwards. -/
def Scanned (ex : Int → Prop) (last : Int) (S : Set Int) (s : Int) (r : Option Int)
    (T : Set Int) : Prop :=
  match r with
  | some m => Finds ex last S s m ∧ T = S ∪ Icc 1 (m - 1)
  | none => (∀ n, s ≤ n → n ≤ last → n ∉ S → ¬ ex n) ∧ T = S ∪ Icc 1 (max last (s - 1))

theorem Top.nonneg (ht : Top S h) : 0 ≤ h := by
  rcases ht.mem with h0 | h1
  · omega
  · have := ht.pos h h1
    omega

theorem Top.unique {k : Int} (ht : Top S h) (hk : Top S k) : h = k := by
  have hh := ht.nonneg
  have hk' := hk.nonneg
  rcases ht.mem with h0 | h1 <;> rcases hk.mem with k0 | k1
  · omega
  · have := ht.le k k1
    omega
  · have := hk.le h h1
    omega
  · have := ht.le k k1
    have := hk.le h h1
    omega

theorem Least.unique {v : Int} (hu : Least S u) (hv : Least S v) : u = v := by
  have h1 : ¬ u < v := fun hlt => hu.notMem (hv.below u hu.pos hlt)
  have h2 : ¬ v < u := fun hlt => hv.notMem (hu.below v hv.pos hlt)
  omega

theorem Top.succ_notMem (ht : Top S h) : h + 1 ∉ S := by
  intro hm
  have := ht.le _ hm
  omega

theorem Least.le_succ (hu : Least S u) (ht : Top S h) : u ≤ h + 1 := by
  by_contra hlt
  have := ht.nonneg
  exact ht.succ_notMem (hu.below _ (by omega) (by omega))

theorem Least.insert_eq (hu : Least S u) : insert u S = S ∪ Icc 1 u := by
  ext n
  constructor
  · rintro (rfl | hn)
    · exact Or.inr ⟨hu.pos, le_rfl⟩
    · exact Or.inl hn
  · rintro (hn | ⟨h1, h2⟩)
    · exact Or.inr hn
    · by_cases hnu : n = u
      · exact Or.inl hnu
      · exact Or.inr (hu.below n h1 (by omega))

theorem start_of_jumps (hj : Jumps ex last S h) :
    start ex last first S h = max (h + 1) first := if_pos hj

theorem start_of_not_jumps (hj : ¬ Jumps ex last S h) : start ex last first S h = 1 := if_neg hj

theorem one_le_start (ht : Top S h) : 1 ≤ start ex last first S h := by
  have := ht.nonneg
  unfold start
  split <;> omega

theorem Least.not_jumps_of_lt (hu : Least S u) (ht : Top S h) (hlast : last < u) :
    ¬ Jumps ex last S h := by
  intro hj
  have := hu.le_succ ht
  have := hj.2.1
  omega

theorem Least.not_jumps_of_ex (hu : Least S u) (ht : Top S h) (he : ex u) :
    ¬ Jumps ex last S h := by
  intro hj
  have := hu.le_succ ht
  by_cases hh : u ≤ h
  · exact hj.1 u hu.pos hh hu.notMem he
  · have : u = h + 1 := by omega
    exact hj.2.2 (this ▸ he)

theorem Least.jumps_of_top (hu : Least S u) (hh : u = h + 1) (hlast : u ≤ last)
    (he : ¬ ex u) : Jumps ex last S h := by
  refine ⟨?_, by omega, hh ▸ he⟩
  intro n h1 h2 hn
  exact absurd (hu.below n h1 (by omega)) hn

/-- A scan that is past the last number. -/
theorem scanned_of_lt (hu : Least S u) (ht : Top S h) (hlast : last < u) :
    Scanned ex last S (start ex last first S h) none S := by
  rw [start_of_not_jumps (hu.not_jumps_of_lt ht hlast)]
  refine ⟨?_, ?_⟩
  · intro n h1 h2 hn
    exact absurd (hu.below n h1 (by omega)) hn
  · symm
    rw [union_eq_left]
    rintro n ⟨h1, h2⟩
    have hmax : n ≤ last := by omega
    exact hu.below n h1 (by omega)

/-- A scan that stands at an item. -/
theorem scanned_of_ex (hu : Least S u) (ht : Top S h) (hlast : u ≤ last) (he : ex u) :
    Scanned ex last S (start ex last first S h) (some u) S := by
  rw [start_of_not_jumps (hu.not_jumps_of_ex ht he)]
  refine ⟨⟨hu.pos, hlast, hu.notMem, he, ?_⟩, ?_⟩
  · intro n h1 h2 hn
    exact absurd (hu.below n h1 h2) hn
  · symm
    rw [union_eq_left]
    rintro n ⟨h1, h2⟩
    exact hu.below n h1 (by omega)

/-- A missing number below the greatest seen one joins the set; the scan goes on as it was. -/
theorem jumps_union_low (hu : Least S u) (he : ¬ ex u) :
    Jumps ex last (S ∪ Icc 1 u) h ↔ Jumps ex last S h := by
  have hout : ∀ n, n ∉ S ∪ Icc 1 u ↔ n ∉ S ∧ ¬ (1 ≤ n ∧ n ≤ u) := by
    intro n
    simp
  unfold Jumps
  refine and_congr_left fun _ => ?_
  constructor
  · intro hall n h1 h2 hn
    by_cases hnu : n = u
    · exact hnu ▸ he
    · apply hall n h1 h2
      rw [hout]
      refine ⟨hn, fun hle => hn (hu.below n h1 (by omega))⟩
  · intro hall n h1 h2 hn
    exact hall n h1 h2 ((hout n).mp hn).1

theorem top_union_low (ht : Top S h) (hh : u ≤ h) : Top (S ∪ Icc 1 u) h where
  le := by
    rintro n (hn | ⟨-, hn⟩)
    · exact ht.le n hn
    · omega
  mem := ht.mem.imp_right Or.inl
  pos := by
    rintro n (hn | ⟨hn, -⟩)
    · exact ht.pos n hn
    · exact hn

theorem Finds.gt (hm : Finds ex last (S ∪ Icc 1 u) first m) (hpos : 1 ≤ first) : u < m := by
  by_contra hle
  have := hm.ge
  exact hm.notMem (Or.inr ⟨by omega, by omega⟩)

theorem union_Icc_max (a b : Int) : S ∪ Icc 1 a ∪ Icc 1 b = S ∪ Icc 1 (max a b) := by
  ext n
  simp only [mem_union, mem_Icc]
  grind

theorem union_Icc_of_le {a b : Int} (hab : a ≤ b) : S ∪ Icc 1 a ∪ Icc 1 b = S ∪ Icc 1 b := by
  rw [union_Icc_max, max_eq_right hab]

/-- Joining a missing number below the greatest seen one does not change how the scan ends. -/
theorem scanned_union_low (hu : Least S u) (ht : Top S h) (hlast : u ≤ last) (he : ¬ ex u)
    (hs : Scanned ex last (S ∪ Icc 1 u) (start ex last first (S ∪ Icc 1 u) h) r T) :
    Scanned ex last S (start ex last first S h) r T := by
  have hstart : start ex last first (S ∪ Icc 1 u) h = start ex last first S h := by
    unfold start
    by_cases hj : Jumps ex last S h
    · rw [if_pos hj, if_pos ((jumps_union_low hu he).mpr hj)]
    · rw [if_neg hj, if_neg fun h => hj ((jumps_union_low hu he).mp h)]
  rw [hstart] at hs
  have hpos : 1 ≤ start ex last first S h := one_le_start ht
  -- a number outside `S` that joined is `u`, which has no item
  have hnew : ∀ n, 1 ≤ n → n ∉ S → n ∈ S ∪ Icc 1 u → ¬ ex n := by
    rintro n h1 hn (hm | ⟨-, hm⟩)
    · exact absurd hm hn
    · by_cases hnu : n = u
      · exact hnu ▸ he
      · exact absurd (hu.below n h1 (by omega)) hn
  cases r with
  | none =>
    obtain ⟨hall, rfl⟩ := hs
    refine ⟨?_, union_Icc_of_le (by omega)⟩
    intro n h1 h2 hn
    by_cases hm : n ∈ S ∪ Icc 1 u
    · exact hnew n (by omega) hn hm
    · exact hall n h1 h2 hm
  | some m =>
    obtain ⟨hf, rfl⟩ := hs
    have hgt := hf.gt hpos
    refine ⟨⟨hf.ge, hf.le, fun hm => hf.notMem (Or.inl hm), hf.item, ?_⟩, union_Icc_of_le (by omega)⟩
    intro n h1 h2 hn
    by_cases hm : n ∈ S ∪ Icc 1 u
    · exact hnew n (by omega) hn hm
    · exact hf.least n h1 h2 hm

/-- The numbers that are seen after a jump from the top. -/
theorem top_union_high (hh : u = h + 1) (ht : Top S h) :
    Top (S ∪ Icc 1 (max u (first - 1))) (max u (first - 1)) where
  le := by
    rintro n (hn | ⟨-, hn⟩)
    · have := ht.le n hn
      omega
    · exact hn
  mem := by
    have := ht.nonneg
    exact Or.inr (Or.inr ⟨by omega, le_rfl⟩)
  pos := by
    rintro n (hn | ⟨hn, -⟩)
    · exact ht.pos n hn
    · exact hn

/-- A jump from the top: the scan ends as if it had begun at the estimate. -/
theorem scanned_union_high (hu : Least S u) (ht : Top S h) (hh : u = h + 1) (hlast : u ≤ last)
    (he : ¬ ex u)
    (hs : Scanned ex last (S ∪ Icc 1 (max u (first - 1)))
      (start ex last first (S ∪ Icc 1 (max u (first - 1))) (max u (first - 1))) r T) :
    Scanned ex last S (start ex last first S h) r T := by
  have hnn := ht.nonneg
  rw [start_of_jumps (hu.jumps_of_top hh hlast he)]
  set v := max u (first - 1) with hv
  have ht' : Top (S ∪ Icc 1 v) v := top_union_high hh ht
  have hpos : 1 ≤ start ex last first (S ∪ Icc 1 v) v := one_le_start ht'
  have hle : start ex last first (S ∪ Icc 1 v) v ≤ v + 1 := by
    unfold start
    split <;> omega
  -- from the estimate on, a number outside `S` is `u` or was not jumped over
  have hnew : ∀ n, max (h + 1) first ≤ n → n ∈ S ∪ Icc 1 v → n ∉ S → ¬ ex n := by
    rintro n h1 (hm | ⟨-, hm⟩) hn
    · exact absurd hm hn
    · have : n = u := by omega
      exact this ▸ he
  have hout : ∀ n, n ∉ S ∪ Icc 1 v → 1 ≤ n → v < n := by
    intro n hn h1
    by_contra hlt
    exact hn (Or.inr ⟨h1, by omega⟩)
  cases r with
  | none =>
    obtain ⟨hall, rfl⟩ := hs
    refine ⟨?_, ?_⟩
    · intro n h1 h2 hn
      by_cases hm : n ∈ S ∪ Icc 1 v
      · exact hnew n h1 hm hn
      · have := hout n hm (by omega)
        exact hall n (by omega) h2 hm
    · rw [union_Icc_max]
      congr 2
      omega
  | some m =>
    obtain ⟨hf, rfl⟩ := hs
    have hgt := hf.gt hpos
    refine ⟨⟨by omega, hf.le, fun hm => hf.notMem (Or.inl hm), hf.item, ?_⟩,
      union_Icc_of_le (by omega)⟩
    intro n h1 h2 hn
    by_cases hm : n ∈ S ∪ Icc 1 v
    · exact hnew n h1 hm hn
    · have := hout n hm (by omega)
      exact hf.least n (by omega) h2 hm

/-- The item that a scan finds is the next one to look at. -/
theorem Scanned.least {s : Int} (hs : Scanned ex last S s (some m) T) (hpos : 1 ≤ s) :
    Least T m := by
  obtain ⟨hm, rfl⟩ := hs
  have hge := hm.ge
  refine ⟨by omega, ?_, fun n h1 h2 => Or.inr ⟨h1, by omega⟩⟩
  rintro (hin | ⟨-, hle⟩)
  · exact hm.notMem hin
  · omega

theorem Scanned.subset {s : Int} (hs : Scanned ex last S s r T) : S ⊆ T := by
  cases r with
  | some m =>
    rw [hs.2]
    exact subset_union_left
  | none =>
    rw [hs.2]
    exact subset_union_left

/-- What a scan finds depends on nothing but the items. -/
theorem Scanned.eq_some_iff {s : Int} (hs : Scanned ex last S s r T) :
    r = some m ↔ Finds ex last S s m := by
  cases r with
  | none =>
    refine ⟨fun h => by simp at h, fun hf => ?_⟩
    exact absurd hf.item (hs.1 m hf.ge hf.le hf.notMem)
  | some k =>
    have hk := hs.1
    constructor
    · intro h
      exact Option.some.inj h ▸ hk
    · intro hf
      have h1 : ¬ k < m := fun hlt => hf.least k hk.ge hlt hk.notMem hk.item
      have h2 : ¬ m < k := fun hlt => hk.least m hf.ge hlt hf.notMem hf.item
      have : k = m := by omega
      exact this ▸ rfl

theorem Scanned.eq_none_iff {s : Int} (hs : Scanned ex last S s r T) :
    r = none ↔ ∀ n, s ≤ n → n ≤ last → n ∉ S → ¬ ex n := by
  cases r with
  | none => exact ⟨fun _ => hs.1, fun _ => rfl⟩
  | some k =>
    refine ⟨fun h => by simp at h, fun hall => ?_⟩
    exact absurd hs.1.item (hall k hs.1.ge hs.1.le hs.1.notMem)

/-- The scan passes over no new item exactly when all of them lie from its start on. -/
theorem Scanned.adds_missing_iff {s : Int} (hs : Scanned ex last S s r T) :
    (∀ n ∈ T, n ∉ S → ¬ ex n) ↔ ∀ n, 1 ≤ n → n ∉ S → ex n → s ≤ n := by
  constructor
  · intro hadd n h1 hn he
    by_contra hlt
    refine hadd n ?_ hn he
    cases r with
    | none =>
      rw [hs.2]
      exact Or.inr ⟨h1, by omega⟩
    | some m =>
      rw [hs.2]
      have := hs.1.ge
      exact Or.inr ⟨h1, by omega⟩
  · intro hall n hT hn he
    cases r with
    | none =>
      rw [hs.2] at hT
      rcases hT with hT | ⟨h1, hT⟩
      · exact hn hT
      · have hge := hall n h1 hn he
        exact hs.1 n hge (by omega) hn he
    | some m =>
      rw [hs.2] at hT
      rcases hT with hT | ⟨h1, hT⟩
      · exact hn hT
      · exact hs.1.least n (hall n h1 hn he) (by omega) hn he

/-- A scan that passes over no new item finds the least one. -/
theorem Scanned.finds_least {s : Int} (hs : Scanned ex last S s r T) (hpos : 1 ≤ s)
    (hall : ∀ n, 1 ≤ n → n ∉ S → ex n → s ≤ n) : r = some m ↔ Finds ex last S 1 m := by
  rw [hs.eq_some_iff]
  constructor
  · intro hf
    have := hf.ge
    refine ⟨by omega, hf.le, hf.notMem, hf.item, ?_⟩
    intro n h1 hlt hn he
    exact hf.least n (hall n h1 hn he) hlt hn he
  · intro hf
    refine ⟨hall m hf.ge hf.notMem hf.item, hf.le, hf.notMem, hf.item, ?_⟩
    intro n hge hlt hn he
    exact hf.least n (by omega) hlt hn he

/-- Every new item lies from the start of the scan on, unless the estimate is beyond one. -/
theorem start_le_iff (ht : Top S h) :
    (∀ n, 1 ≤ n → n ∉ S → ex n → start ex last first S h ≤ n) ↔
      (Jumps ex last S h → ∀ n, h < n → ex n → first ≤ n) := by
  have hnn := ht.nonneg
  constructor
  · intro hall hj n hn he
    have hout : n ∉ S := fun hm => by
      have := ht.le n hm
      omega
    have := hall n (by omega) hout he
    rw [start_of_jumps hj] at this
    omega
  · intro hall n h1 hn he
    by_cases hj : Jumps ex last S h
    · rw [start_of_jumps hj]
      have h2 : h < n := by
        by_contra hle
        exact hj.1 n h1 (by omega) hn he
      have := hall hj n h2 he
      omega
    · rw [start_of_not_jumps hj]
      exact h1

/-- A scan finds an item exactly when there is a new one, not below the estimate if it jumps. -/
theorem Scanned.isSome_iff (ht : Top S h)
    (hs : Scanned ex last S (start ex last first S h) r T) :
    r.isSome ↔ ∃ n, 1 ≤ n ∧ n ≤ last ∧ n ∉ S ∧ ex n ∧ (Jumps ex last S h → first ≤ n) := by
  have hnn := ht.nonneg
  have hpos : 1 ≤ start ex last first S h := one_le_start ht
  cases r with
  | none =>
    refine ⟨fun h => by simp at h, ?_⟩
    rintro ⟨n, h1, h2, hn, he, hest⟩
    have hge : start ex last first S h ≤ n := by
      by_cases hj : Jumps ex last S h
      · rw [start_of_jumps hj]
        have h3 : h < n := by
          by_contra hle
          exact hj.1 n h1 (by omega) hn he
        have := hest hj
        omega
      · rw [start_of_not_jumps hj]
        exact h1
    exact absurd he (hs.1 n hge h2 hn)
  | some m =>
    refine ⟨fun _ => ⟨m, ?_, hs.1.le, hs.1.notMem, hs.1.item, ?_⟩, fun _ => rfl⟩
    · have := hs.1.ge
      omega
    · intro hj
      have := hs.1.ge
      rw [start_of_jumps hj] at this
      omega

/-- A scan leaves every seen number up to the last one exactly when it jumps at most to the number
after the last. -/
theorem Scanned.le_last_iff (ht : Top S h)
    (hs : Scanned ex last S (start ex last first S h) r T) (hS : ∀ n ∈ S, n ≤ last) :
    (∀ n ∈ T, n ≤ last) ↔ (Jumps ex last S h → first ≤ last + 1) := by
  have hnn := ht.nonneg
  cases r with
  | none =>
    rw [hs.2]
    constructor
    · intro hall hj
      have hle := hj.2.1
      by_contra hlt
      have := hall (first - 1) (Or.inr ⟨by omega, by rw [start_of_jumps hj]; omega⟩)
      omega
    · rintro hest n (hn | ⟨h1, h2⟩)
      · exact hS n hn
      · by_cases hj : Jumps ex last S h
        · have := hest hj
          have := hj.2.1
          rw [start_of_jumps hj] at h2
          omega
        · rw [start_of_not_jumps hj] at h2
          omega
  | some m =>
    obtain ⟨hm, rfl⟩ := hs
    have hle := hm.le
    refine iff_of_true ?_ fun hj => ?_
    · rintro n (hn | ⟨-, hn⟩)
      · exact hS n hn
      · omega
    · have := hm.ge
      rw [start_of_jumps hj] at this
      omega

end GapScan
