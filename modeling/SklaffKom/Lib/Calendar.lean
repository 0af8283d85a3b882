import Mathlib.Data.Int.LeastGreatest
import Mathlib.Order.Monotone.Basic

/-!
# The proleptic Gregorian calendar

Days are numbered from 1970-01-01, seconds from its beginning, both in both directions.  Months are
numbered from 0.
-/

namespace Calendar

def isLeap (year : Int) : Bool :=
  year % 4 = 0 && (year % 100 ≠ 0 || year % 400 = 0)

def yearStart (year : Int) : Int :=
  365 * year + (year - 1) / 4 - (year - 1) / 100 + (year - 1) / 400 - 719527

def monthLength (leap : Bool) (mon : Nat) : Nat :=
  if mon = 1 then (if leap then 29 else 28)
  else if mon = 3 ∨ mon = 5 ∨ mon = 8 ∨ mon = 10 then 30
  else 31

def monthStart (leap : Bool) : Nat → Nat
  | 0 => 0
  | mon + 1 => monthStart leap mon + monthLength leap mon

/-- The number of a day; days past the end of the month are counted on. -/
def dayNumber (year : Int) (mon : Nat) (mday : Int) : Int :=
  yearStart year + monthStart (isLeap year) mon + (mday - 1)

example : dayNumber 1970 0 1 = 0 := by decide

example : dayNumber 2026 5 14 = 20618 := by decide

/-! ## Years -/

theorem yearStart_succ (year : Int) :
    yearStart (year + 1) = yearStart year + if isLeap year then 366 else 365 := by
  have hleap : isLeap year = true ↔ year % 4 = 0 ∧ (year % 100 ≠ 0 ∨ year % 400 = 0) := by
    simp [isLeap]
  by_cases h : year % 4 = 0 ∧ (year % 100 ≠ 0 ∨ year % 400 = 0)
  · rw [if_pos (hleap.mpr h)]
    unfold yearStart
    omega
  · rw [if_neg (fun hl => h (hleap.mp hl))]
    unfold yearStart
    omega

theorem yearStart_le {year year' : Int} (h : year ≤ year') : yearStart year ≤ yearStart year' := by
  unfold yearStart
  omega

/-- Every day is in a year. -/
theorem exists_year (n : Int) : ∃ year, yearStart year ≤ n ∧ n < yearStart (year + 1) := by
  have hbound : ∀ year, yearStart year ≤ n → year ≤ 719530 + n.natAbs := by
    intro year h
    unfold yearStart at h
    omega
  have hsome : ∃ year, yearStart year ≤ n := by
    refine ⟨-(n.natAbs : Int), ?_⟩
    unfold yearStart
    omega
  obtain ⟨year, hle, hmax⟩ := Int.exists_greatest_of_bdd ⟨_, hbound⟩ hsome
  refine ⟨year, hle, ?_⟩
  by_contra hlt
  have hnext := hmax (year + 1) (by omega)
  omega

/-! ## Months -/

section Months

variable {leap : Bool} {mon n : Nat} {year year' : Int}

theorem monthStart_mono (leap : Bool) : Monotone (monthStart leap) :=
  monotone_nat_of_le_succ fun _ => Nat.le_add_right _ _

theorem monthStart_year (leap : Bool) : monthStart leap 12 = if leap then 366 else 365 := by
  cases leap <;> rfl

/-- Every day of a year is in a month. -/
theorem exists_month {k : Nat} (h : n < monthStart leap k) :
    ∃ mon < k, monthStart leap mon ≤ n ∧ n < monthStart leap (mon + 1) := by
  induction k with
  | zero => exact absurd h (Nat.not_lt_zero _)
  | succ k ih =>
    by_cases hk : n < monthStart leap k
    · obtain ⟨mon, hmon, hin⟩ := ih hk
      exact ⟨mon, by omega, hin⟩
    · exact ⟨k, Nat.lt_add_one _, by omega, h⟩

/-- A leap day at most. -/
theorem monthStart_le (a b : Bool) (mon : Nat) : monthStart a mon ≤ monthStart b mon + 1 := by
  have hleap : monthStart true mon = monthStart false mon + if 1 < mon then 1 else 0 := by
    induction mon with
    | zero => rfl
    | succ mon ih =>
      rw [monthStart, monthStart, ih]
      by_cases hmon : mon = 1
      · subst hmon
        rfl
      · have hlen : monthLength true mon = monthLength false mon := by
          rw [monthLength, monthLength, if_neg hmon, if_neg hmon]
        rw [hlen]
        split <;> split <;> omega
  cases a <;> cases b <;> split at hleap <;> omega

/-- The same day of two years. -/
theorem dayNumber_lt (h : year < year') (mon : Nat) (mday : Int) :
    dayNumber year mon mday < dayNumber year' mon mday := by
  have hstep := yearStart_succ year
  have hle : yearStart (year + 1) ≤ yearStart year' :=
    yearStart_le (by omega)
  have hmonth := monthStart_le (isLeap year) (isLeap year') mon
  unfold dayNumber
  split at hstep <;> omega

end Months

/-! ## Dates and times -/

structure Date where
  year : Int
  mon : Nat
  mday : Nat
  mon_lt : mon < 12
  mday_pos : 1 ≤ mday
  mday_le : mday ≤ monthLength (isLeap year) mon

def Date.day (d : Date) : Int := dayNumber d.year d.mon d.mday

/-- The name of the day, Sunday being 0. -/
def Date.weekday (d : Date) : Nat := ((d.day + 4) % 7).toNat

structure DateTime extends Date where
  hour : Nat
  min : Nat
  sec : Nat
  hour_lt : hour < 24
  min_lt : min < 60
  sec_lt : sec < 60

/-- The seconds since the beginning of 1970, where the time is the one of UTC. -/
def DateTime.seconds (d : DateTime) : Int :=
  d.day * 86400 + d.hour * 3600 + d.min * 60 + d.sec

theorem Date.year_le (d : Date) : yearStart d.year ≤ d.day := by
  have h := d.mday_pos
  unfold Date.day dayNumber
  omega

theorem Date.lt_year (d : Date) : d.day < yearStart (d.year + 1) := by
  have hlast : monthStart (isLeap d.year) (d.mon + 1) ≤ monthStart (isLeap d.year) 12 :=
    monthStart_mono _ d.mon_lt
  have hle := d.mday_le
  rw [monthStart_year, monthStart] at hlast
  rw [yearStart_succ]
  unfold Date.day dayNumber
  split at hlast
  · next hl =>
    rw [if_pos hl]
    omega
  · next hl =>
    rw [if_neg hl]
    omega

/-- Every day has a date. -/
theorem exists_date (n : Int) : ∃ d : Date, d.day = n := by
  obtain ⟨year, hle, hlt⟩ := exists_year n
  obtain ⟨k, hk⟩ := Int.eq_ofNat_of_zero_le (a := n - yearStart year) (by omega)
  have hyear : k < monthStart (isLeap year) 12 := by
    rw [yearStart_succ] at hlt
    rw [monthStart_year]
    split at hlt
    · next hl =>
      rw [if_pos hl]
      omega
    · next hl =>
      rw [if_neg hl]
      omega
  obtain ⟨mon, hmon, hstart, hend⟩ := exists_month hyear
  rw [monthStart] at hend
  refine ⟨⟨year, mon, k - monthStart (isLeap year) mon + 1, hmon, by omega, by omega⟩, ?_⟩
  unfold Date.day dayNumber
  push_cast
  omega

/-- Every second has a date and a time of day. -/
theorem exists_dateTime (n : Int) : ∃ d : DateTime, d.seconds = n := by
  obtain ⟨d, hd⟩ := exists_date (n / 86400)
  refine ⟨⟨d, (n % 86400 / 3600).toNat, (n % 3600 / 60).toNat, (n % 60).toNat, by omega, by omega,
    by omega⟩, ?_⟩
  show d.day * 86400 + ((n % 86400 / 3600).toNat : Int) * 3600 + ((n % 3600 / 60).toNat : Int) * 60 +
    ((n % 60).toNat : Int) = n
  rw [hd]
  omega

/-- The years in front of a year. -/
theorem DateTime.year_lt_iff (d : DateTime) (year : Int) :
    d.year < year ↔ d.seconds < yearStart year * 86400 := by
  have hle := d.year_le
  have hlt := d.lt_year
  have hh := d.hour_lt
  have hm := d.min_lt
  have hs := d.sec_lt
  unfold DateTime.seconds
  constructor
  · intro h
    have hnext : yearStart (d.year + 1) ≤ yearStart year :=
      yearStart_le (by omega)
    omega
  · intro h
    by_contra hge
    have hthis : yearStart year ≤ yearStart d.year :=
      yearStart_le (by omega)
    omega

end Calendar
