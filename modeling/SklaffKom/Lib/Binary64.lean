import Mathlib.Data.Rat.Cast.Order
import Mathlib.Algebra.Order.Field.Rat
import Mathlib.Tactic.FieldSimp
import Mathlib.Tactic.Ring

/-!
# Doubles

The 64 bits of a double and the number they stand for.  A whole number of at most 53 bits times a power
of two is encoded exactly, so that an operation that is rounded correctly is exact where its result is
such a number.
-/

namespace Binary64

/-- The bits of a double with these fields. -/
def pack (sign exponent fraction : Nat) : BitVec 64 :=
  BitVec.ofNat 64 (sign * 2 ^ 63 + exponent * 2 ^ 52 + fraction)

def signBit (d : BitVec 64) : Nat := d.toNat / 2 ^ 63

def exponentBits (d : BitVec 64) : Nat := d.toNat / 2 ^ 52 % 2 ^ 11

def fractionBits (d : BitVec 64) : Nat := d.toNat % 2 ^ 52

/-- The number of a finite double; the exponent 2047 of infinities and of what is no number has no
meaning here. -/
def value (d : BitVec 64) : ℚ :=
  let magnitude : ℚ :=
    if exponentBits d = 0 then (fractionBits d : ℚ) * (2 : ℚ) ^ (-1074 : ℤ)
    else ((2 ^ 52 + fractionBits d : Nat) : ℚ) * (2 : ℚ) ^ ((exponentBits d : ℤ) - 1075)
  if signBit d = 0 then magnitude else -magnitude

/-- The double of `k * 2 ^ s`. -/
def ofDyadic (k s : ℤ) : BitVec 64 :=
  let m := k.natAbs
  if m = 0 then 0
  else pack (if k < 0 then 1 else 0) (1023 + m.log2 + s).toNat ((m - 2 ^ m.log2) * 2 ^ (52 - m.log2))

section Fields

variable {sign exponent fraction : Nat}

theorem toNat_pack (hs : sign ≤ 1) (he : exponent < 2 ^ 11) (hf : fraction < 2 ^ 52) :
    (pack sign exponent fraction).toNat = sign * 2 ^ 63 + exponent * 2 ^ 52 + fraction := by
  unfold pack
  rw [BitVec.toNat_ofNat]
  omega

theorem signBit_pack (hs : sign ≤ 1) (he : exponent < 2 ^ 11) (hf : fraction < 2 ^ 52) :
    signBit (pack sign exponent fraction) = sign := by
  unfold signBit
  rw [toNat_pack hs he hf]
  omega

theorem exponentBits_pack (hs : sign ≤ 1) (he : exponent < 2 ^ 11) (hf : fraction < 2 ^ 52) :
    exponentBits (pack sign exponent fraction) = exponent := by
  unfold exponentBits
  rw [toNat_pack hs he hf]
  omega

theorem fractionBits_pack (hs : sign ≤ 1) (he : exponent < 2 ^ 11) (hf : fraction < 2 ^ 52) :
    fractionBits (pack sign exponent fraction) = fraction := by
  unfold fractionBits
  rw [toNat_pack hs he hf]
  omega

/-- The low word of a double is that of its fraction. -/
theorem setWidth_pack (hs : sign ≤ 1) (he : exponent < 2 ^ 11) (hf : fraction < 2 ^ 52) :
    (pack sign exponent fraction).setWidth 32 = BitVec.ofNat 32 fraction := by
  apply BitVec.eq_of_toNat_eq
  rw [BitVec.toNat_setWidth, BitVec.toNat_ofNat, toNat_pack hs he hf]
  omega

theorem value_pack (hs : sign ≤ 1) (hpos : 0 < exponent) (he : exponent < 2 ^ 11) (hf : fraction < 2 ^ 52) :
    value (pack sign exponent fraction) =
      (if sign = 0 then 1 else -1) * (((2 ^ 52 + fraction : Nat) : ℚ) * (2 : ℚ) ^ ((exponent : ℤ) - 1075)) := by
  unfold value
  have hne : ¬ exponent = 0 := by omega
  rw [signBit_pack hs he hf, exponentBits_pack hs he hf, fractionBits_pack hs he hf]
  dsimp only
  rw [if_neg hne]
  by_cases hsign : sign = 0
  · rw [if_pos hsign, if_pos hsign, one_mul]
  · rw [if_neg hsign, if_neg hsign, neg_one_mul]

end Fields

/-- The leading bit and the fraction of a number of at most 53 bits. -/
theorem significand {m : Nat} (h0 : m ≠ 0) (h : m < 2 ^ 53) :
    m.log2 ≤ 52 ∧ (m - 2 ^ m.log2) * 2 ^ (52 - m.log2) < 2 ^ 52 ∧
      2 ^ 52 + (m - 2 ^ m.log2) * 2 ^ (52 - m.log2) = m * 2 ^ (52 - m.log2) := by
  have hlow : 2 ^ m.log2 ≤ m := Nat.log2_self_le h0
  have hhigh : m < 2 ^ (m.log2 + 1) := Nat.lt_log2_self
  have hlog : m.log2 ≤ 52 := by
    have hlt : m.log2 < 53 := (Nat.log2_lt h0).mpr h
    omega
  have hpow : 2 ^ m.log2 * 2 ^ (52 - m.log2) = 2 ^ 52 := by
    rw [← Nat.pow_add, Nat.add_sub_cancel' hlog]
  refine ⟨hlog, ?_, ?_⟩
  · calc (m - 2 ^ m.log2) * 2 ^ (52 - m.log2) < 2 ^ m.log2 * 2 ^ (52 - m.log2) := by
          apply Nat.mul_lt_mul_of_pos_right _ (Nat.two_pow_pos _)
          rw [Nat.pow_succ] at hhigh
          omega
      _ = 2 ^ 52 := hpow
  · rw [Nat.sub_mul, hpow]
    have hle : 2 ^ m.log2 * 2 ^ (52 - m.log2) ≤ m * 2 ^ (52 - m.log2) := Nat.mul_le_mul_right _ hlow
    rw [hpow] at hle
    omega

/-- The encoding is exact. -/
theorem value_ofDyadic {k s : ℤ} (hk : k.natAbs < 2 ^ 53) (hlow : -1023 < s) (hhigh : s + 52 < 1024) :
    value (ofDyadic k s) = k * (2 : ℚ) ^ s := by
  unfold ofDyadic
  dsimp only
  by_cases h0 : k.natAbs = 0
  · have hzero : value 0 = 0 := by
      unfold value
      simp [exponentBits, fractionBits]
    rw [if_pos h0, Int.natAbs_eq_zero.mp h0, hzero]
    simp
  · obtain ⟨hlog, hfraction, hsig⟩ := significand h0 hk
    have hsign : (if k < 0 then 1 else 0) ≤ 1 := by split <;> omega
    have hexp : ((1023 + k.natAbs.log2 + s).toNat : ℤ) - 1075 = s - (52 - k.natAbs.log2 : ℕ) := by omega
    rw [if_neg h0, value_pack hsign (by omega) (by omega) hfraction, hsig, hexp,
      zpow_sub₀ two_ne_zero, zpow_natCast, Nat.cast_mul, Nat.cast_pow]
    have hpow : ((2 : ℚ) ^ (52 - k.natAbs.log2)) ≠ 0 := pow_ne_zero _ two_ne_zero
    have habs : (if (if k < 0 then 1 else 0) = 0 then 1 else -1 : ℚ) * (k.natAbs : ℚ) = k := by
      rw [show (k.natAbs : ℚ) = ((k.natAbs : ℤ) : ℚ) from rfl]
      by_cases hneg : k < 0
      · rw [if_pos hneg, if_neg one_ne_zero, show (k.natAbs : ℤ) = -k by omega]
        simp
      · rw [if_neg hneg, if_pos rfl, show (k.natAbs : ℤ) = k by omega, one_mul]
    calc _ = (if (if k < 0 then 1 else 0) = 0 then 1 else -1 : ℚ) * (k.natAbs : ℚ) * 2 ^ s := by
          field_simp
          norm_num
      _ = k * 2 ^ s := by rw [habs]

/-- The low word of a whole number of at most 21 bits is zero. -/
theorem setWidth_ofDyadic {k s : ℤ} (hk : k.natAbs < 2 ^ 21) (hlow : -1023 < s) (hhigh : s + 52 < 1024) :
    (ofDyadic k s).setWidth 32 = 0 := by
  unfold ofDyadic
  dsimp only
  by_cases h0 : k.natAbs = 0
  · rw [if_pos h0]
    rfl
  · obtain ⟨hlog, hfraction, -⟩ := significand h0 (by omega)
    have hsign : (if k < 0 then 1 else 0) ≤ 1 := by split <;> omega
    have hlog' : k.natAbs.log2 < 21 := (Nat.log2_lt h0).mpr hk
    have hfactor : 2 ^ (52 - k.natAbs.log2) = 2 ^ 32 * 2 ^ (20 - k.natAbs.log2) := by
      rw [← Nat.pow_add]
      congr 1
      omega
    rw [if_neg h0, setWidth_pack hsign (by omega) hfraction, hfactor]
    apply BitVec.eq_of_toNat_eq
    rw [BitVec.toNat_ofNat, Nat.mul_left_comm, Nat.mul_mod_right]
    rfl

end Binary64
