import BlockConvert.Record
import Mathlib.Algebra.Group.Int.Defs
import Mathlib.Algebra.Group.Nat.Defs

set_option autoImplicit false

/-!
# Whole numbers as doubles

A whole number below 2^53 has all its digits in the fraction of a double, so that no two of them
have the same pattern. In particular the location of an entity that stands on block coordinates
tells these coordinates.
-/

namespace BlockConvert

namespace Decimal.Format

/-- The number shifted until its highest digit is the hidden one of a double. -/
def aligned (m : Nat) : Nat := m * 2 ^ (52 - m.log2)

theorem log2_le_of_lt {m : Nat} (h : 0 < m) (hm : m < 2 ^ 53) : m.log2 ≤ 52 :=
  Nat.le_of_lt_succ ((Nat.log2_lt (by omega)).2 hm)

theorem aligned_bounds {m : Nat} (h : 0 < m) (hm : m < 2 ^ 53) :
    2 ^ 52 ≤ aligned m ∧ aligned m < 2 ^ 53 := by
  have hl := log2_le_of_lt h hm
  have hlow : 2 ^ m.log2 ≤ m := Nat.log2_self_le (by omega)
  have hhigh : m < 2 ^ (m.log2 + 1) := Nat.lt_log2_self
  constructor
  · calc 2 ^ 52 = 2 ^ m.log2 * 2 ^ (52 - m.log2) := by rw [← Nat.pow_add]; congr 1; omega
      _ ≤ aligned m := Nat.mul_le_mul_right _ hlow
  · calc aligned m < 2 ^ (m.log2 + 1) * 2 ^ (52 - m.log2) :=
          Nat.mul_lt_mul_of_pos_right hhigh (Nat.two_pow_pos _)
      _ = 2 ^ 53 := by rw [← Nat.pow_add]; congr 1; omega

theorem scale_whole {m : Nat} (h : 0 < m) (hm : m < 2 ^ 53) :
    scale m 1 ((m.log2 : Int) - 52) = (aligned m, 1) := by
  have hl := log2_le_of_lt h hm
  unfold scale aligned
  split
  · have hexact : m.log2 = 52 := by omega
    simp [hexact, twoTo]
  · have hshift : (-((m.log2 : Int) - 52)).toNat = 52 - m.log2 := by omega
    rw [hshift]
    rfl

theorem unitExponent_whole {m : Nat} (h : 0 < m) (hm : m < 2 ^ 53) :
    double.unitExponent m 1 = (m.log2 : Int) - 52 := by
  have hlog : Nat.log2 1 = 0 := by decide
  have hguess : (m.log2 : Int) - (Nat.log2 1 : Int) - (double.fractionBits : Int) =
      (m.log2 : Int) - 52 := by rw [hlog]; rfl
  have hfull : ¬ aligned m < twoTo double.fractionBits :=
    Nat.not_lt.2 (aligned_bounds h hm).1
  have hleast : double.leastExponent = -1074 := by decide
  simp only [unitExponent, hguess, scale_whole h hm, Nat.div_one, hfull, if_false, hleast]
  omega

theorem roundQuotient_one (n : Nat) : roundQuotient n 1 = n := by
  simp [roundQuotient, Nat.mod_one]

theorem roundMagnitude_whole {m : Nat} (h : 0 < m) (hm : m < 2 ^ 53) :
    double.roundMagnitude m 1 = (m.log2 + 1022) * 2 ^ 52 + aligned m := by
  have hl := log2_le_of_lt h hm
  have hb := aligned_bounds h hm
  have hfield : ((m.log2 : Int) - 52 - double.leastExponent).toNat = m.log2 + 1022 := by
    have hleast : double.leastExponent = -1074 := by decide
    rw [hleast]
    omega
  have htop : double.infinityBits = 2047 * 2 ^ 52 := by decide
  have hunit : twoTo double.fractionBits = 2 ^ 52 := by decide
  simp only [roundMagnitude, Nat.ne_of_gt h, if_false, unitExponent_whole h hm, scale_whole h hm,
    hfield, roundQuotient_one, htop, hunit]
  omega

theorem roundMagnitude_lt {m : Nat} (hm : m < 2 ^ 53) : double.roundMagnitude m 1 < 2 ^ 63 := by
  rcases Nat.eq_zero_or_pos m with rfl | h
  · decide
  · have hl := log2_le_of_lt h hm
    have hb := aligned_bounds h hm
    rw [roundMagnitude_whole h hm]
    omega

theorem roundMagnitude_injective {m n : Nat} (hm : m < 2 ^ 53) (hn : n < 2 ^ 53)
    (h : double.roundMagnitude m 1 = double.roundMagnitude n 1) : m = n := by
  have hzero : double.roundMagnitude 0 1 = 0 := rfl
  rcases Nat.eq_zero_or_pos m with rfl | hm0 <;> rcases Nat.eq_zero_or_pos n with rfl | hn0
  · rfl
  · rw [hzero, roundMagnitude_whole hn0 hn] at h
    have := (aligned_bounds hn0 hn).1
    omega
  · rw [hzero, roundMagnitude_whole hm0 hm] at h
    have := (aligned_bounds hm0 hm).1
    omega
  · rw [roundMagnitude_whole hm0 hm, roundMagnitude_whole hn0 hn] at h
    have bm := aligned_bounds hm0 hm
    have bn := aligned_bounds hn0 hn
    have hlog : m.log2 = n.log2 := by omega
    have hdigits : aligned m = aligned n := by omega
    unfold aligned at hdigits
    rw [hlog] at hdigits
    exact Nat.eq_of_mul_eq_mul_right (Nat.two_pow_pos _) hdigits

theorem ofInt_injective {m n : Int} (hm : m.natAbs < 2 ^ 53) (hn : n.natAbs < 2 ^ 53)
    (h : double.ofInt m = double.ofInt n) : m = n := by
  have hsign : double.signBit = 2 ^ 63 := by decide
  have lm := roundMagnitude_lt hm
  have ln := roundMagnitude_lt hn
  simp only [ofInt, round, hsign, decide_eq_true_eq] at h
  have hparts : double.roundMagnitude m.natAbs 1 = double.roundMagnitude n.natAbs 1 ∧
      (m < 0 ↔ n < 0) := by
    split at h <;> split at h <;> omega
  have habs := roundMagnitude_injective hm hn hparts.1
  omega

theorem ofInt_lt {n : Int} (hn : n.natAbs < 2 ^ 53) : double.ofInt n < 2 ^ 64 := by
  have hsign : double.signBit = 2 ^ 63 := by decide
  have ln := roundMagnitude_lt hn
  simp only [ofInt, round, hsign]
  split <;> omega

end Decimal.Format

namespace Location

open Decimal

theorem natAbs_lt (n : Int32) : n.toInt.natAbs < 2 ^ 53 := by
  have hlow := Int32.le_toInt n
  have hhigh := Int32.toInt_lt n
  omega

theorem double_injective {m n : Int32}
    (h : UInt64.ofNat (Format.double.ofInt m.toInt) = UInt64.ofNat (Format.double.ofInt n.toInt)) :
    m = n := by
  have hbits := congrArg UInt64.toNat h
  rw [UInt64.toNat_ofNat_of_lt' (Format.ofInt_lt (natAbs_lt m)),
    UInt64.toNat_ofNat_of_lt' (Format.ofInt_lt (natAbs_lt n))] at hbits
  exact Int32.toInt_inj.1 (Format.ofInt_injective (natAbs_lt m) (natAbs_lt n) hbits)

/-- Block coordinates can be read off the location of an entity that stands on them. -/
theorem ofCoords_injective {a b : Coords} (h : ofCoords a = ofCoords b) : a = b := by
  simp only [ofCoords, Location.mk.injEq] at h
  obtain ⟨hx, hy, hz⟩ := h
  cases a
  cases b
  simp only [Coords.mk.injEq]
  exact ⟨double_injective hx, double_injective hy, double_injective hz⟩

end Location

end BlockConvert
