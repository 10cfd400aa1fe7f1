import BlockConvert.Decimal.Binary
import Mathlib.Algebra.Order.Field.Power
import Mathlib.Algebra.Order.Ring.Rat
import Mathlib.Data.Nat.Cast.Order.Field
import Mathlib.Tactic.FieldSimp
import Mathlib.Tactic.Linarith
import Mathlib.Tactic.NormNum
import Mathlib.Tactic.Positivity
import Mathlib.Tactic.Ring

set_option autoImplicit false

/-!
# Rounding to a binary format

A positive finite value of a format is `m * 2 ^ e` with the unit in the last place as `2 ^ e`. A
quotient that lies between the middles to its neighbours, or on one of them if `m` is even, is
rounded to it. Quotients are compared as rational numbers, whatever terms they are given by.
-/

namespace BlockConvert.Decimal

namespace Format

theorem roundQuotient_eq {n d k : Nat} (hd : 0 < d) (hlow : 2 * (k * d) ≤ 2 * n + d)
    (hhigh : 2 * n ≤ 2 * (k * d) + d)
    (htie : k % 2 = 0 ∨ 2 * (k * d) < 2 * n + d ∧ 2 * n < 2 * (k * d) + d) :
    roundQuotient n d = k := by
  have hsplit : d * (n / d) + n % d = n := Nat.div_add_mod n d
  have hrest : n % d < d := Nat.mod_lt n hd
  unfold roundQuotient
  dsimp only
  generalize n / d = q at *
  generalize n % d = r at *
  rcases Nat.lt_trichotomy k q with hkq | rfl | hqk
  · -- then the quotient is a whole unit above
    have hmul : k * d + d ≤ d * q := by
      rw [← Nat.succ_mul, Nat.mul_comm d q]
      exact Nat.mul_le_mul_right d hkq
    omega
  · rw [Nat.mul_comm] at hsplit
    split
    · rfl
    · split
      · omega
      · split
        · rfl
        · omega
  · rcases Nat.eq_or_lt_of_le hqk with rfl | hqk'
    · have hmul : q.succ * d = d * q + d := by rw [Nat.succ_mul, Nat.mul_comm]
      rw [hmul] at hlow hhigh htie
      split
      · omega
      · split
        · rfl
        · split
          · omega
          · rfl
    · have hmul : d * q + 2 * d ≤ k * d := by
        rw [Nat.mul_comm d q, ← Nat.add_mul]
        exact Nat.mul_le_mul_right d hqk'
      omega

theorem roundQuotient_of_near {n d k : Nat} (hd : 0 < d) (hlow : (k : ℚ) - 1 / 2 ≤ n / d)
    (hhigh : (n : ℚ) / d ≤ k + 1 / 2)
    (htie : k % 2 = 0 ∨ (k : ℚ) - 1 / 2 < n / d ∧ (n : ℚ) / d < k + 1 / 2) :
    roundQuotient n d = k := by
  have hpos : (0 : ℚ) < d := by exact_mod_cast hd
  apply roundQuotient_eq hd
  · rw [le_div_iff₀ hpos] at hlow
    have : (2 * (k * d) : ℚ) ≤ 2 * n + d := by linarith
    exact_mod_cast this
  · rw [div_le_iff₀ hpos] at hhigh
    have : (2 * n : ℚ) ≤ 2 * (k * d) + d := by linarith
    exact_mod_cast this
  · refine htie.imp id fun ⟨hl, hh⟩ => ⟨?_, ?_⟩
    · rw [lt_div_iff₀ hpos] at hl
      have : (2 * (k * d) : ℚ) < 2 * n + d := by linarith
      exact_mod_cast this
    · rw [div_lt_iff₀ hpos] at hh
      have : (2 * n : ℚ) < 2 * (k * d) + d := by linarith
      exact_mod_cast this

theorem two_zpow_pos (e : ℤ) : (0 : ℚ) < 2 ^ e := zpow_pos (by norm_num) e

theorem two_zpow_succ (e : ℤ) : (2 : ℚ) ^ (e + 1) = 2 * 2 ^ e := by
  rw [zpow_add_one₀ (by norm_num), mul_comm]

theorem cast_twoTo (n : Nat) : ((twoTo n : Nat) : ℚ) = 2 ^ n := by
  rw [twoTo]
  exact Nat.cast_pow 2 n

theorem twoTo_toNat {e : ℤ} (h : 0 ≤ e) : ((twoTo e.toNat : Nat) : ℚ) = 2 ^ e := by
  rw [cast_twoTo, ← zpow_natCast, Int.toNat_of_nonneg h]

theorem scale_ratio (num : Nat) {den : Nat} (hden : 0 < den) (e : ℤ) :
    0 < (scale num den e).2 ∧
      ((scale num den e).1 : ℚ) / (scale num den e).2 = (num : ℚ) / den / 2 ^ e := by
  have hpos := twoTo_pos
  unfold scale
  split
  · rename_i he
    refine ⟨Nat.mul_pos hden (hpos _), ?_⟩
    rw [Nat.cast_mul, twoTo_toNat he, div_div]
  · rename_i he
    refine ⟨hden, ?_⟩
    rw [Nat.cast_mul, twoTo_toNat (by omega), zpow_neg]
    have := two_zpow_pos e
    field_simp

structure UnitAt (f : Format) (q : ℚ) (e : ℤ) : Prop where
  least : f.leastExponent ≤ e
  above : q < 2 ^ (f.fractionBits + 1) * 2 ^ e
  full : e = f.leastExponent ∨ 2 ^ f.fractionBits * 2 ^ e ≤ q

variable {f : Format} {q : ℚ} {d e : ℤ}

theorem UnitAt.le (hd : f.UnitAt q d) (he : f.UnitAt q e) : e ≤ d := by
  by_contra hlt
  have hde : d + 1 ≤ e := by omega
  have hfull : 2 ^ f.fractionBits * 2 ^ e ≤ q := by
    rcases he.full with heq | hfull
    · have := hd.least
      omega
    · exact hfull
  have hstep : (2 : ℚ) * 2 ^ d ≤ 2 ^ e := by
    rw [← two_zpow_succ]
    exact zpow_le_zpow_right₀ (by norm_num) hde
  have habove := hd.above
  rw [pow_succ, mul_assoc] at habove
  have hmul : (2 : ℚ) ^ f.fractionBits * (2 * 2 ^ d) ≤ 2 ^ f.fractionBits * 2 ^ e :=
    mul_le_mul_of_nonneg_left hstep (by positivity)
  linarith

theorem UnitAt.unique (hd : f.UnitAt q d) (he : f.UnitAt q e) : d = e :=
  le_antisymm (he.le hd) (hd.le he)

theorem log2_bounds {n : Nat} (h : 0 < n) :
    (2 : ℚ) ^ (n.log2 : ℤ) ≤ n ∧ (n : ℚ) < 2 * 2 ^ (n.log2 : ℤ) := by
  rw [← two_zpow_succ, zpow_natCast]
  constructor
  · exact_mod_cast Nat.log2_self_le (Nat.ne_of_gt h)
  · have : n < 2 ^ (n.log2 + 1) := Nat.lt_log2_self
    exact_mod_cast this

theorem quotient_bounds {num den : Nat} (hnum : 0 < num) (hden : 0 < den) :
    (2 : ℚ) ^ ((num.log2 : ℤ) - den.log2 - 1) < num / den ∧
      (num : ℚ) / den < 2 ^ ((num.log2 : ℤ) - den.log2 + 1) := by
  obtain ⟨hnlow, hnhigh⟩ := log2_bounds hnum
  obtain ⟨hdlow, hdhigh⟩ := log2_bounds hden
  have hpos : (0 : ℚ) < den := by exact_mod_cast hden
  have hn := two_zpow_pos num.log2
  have hd := two_zpow_pos den.log2
  rw [zpow_add_one₀ (by norm_num), zpow_sub_one₀ (by norm_num), zpow_sub₀ (by norm_num)]
  constructor
  · rw [lt_div_iff₀ hpos]
    calc (2 : ℚ) ^ (num.log2 : ℤ) / 2 ^ (den.log2 : ℤ) * 2⁻¹ * den
        < 2 ^ (num.log2 : ℤ) / 2 ^ (den.log2 : ℤ) * 2⁻¹ * (2 * 2 ^ (den.log2 : ℤ)) := by gcongr
      _ = 2 ^ (num.log2 : ℤ) := by field_simp
      _ ≤ num := hnlow
  · rw [div_lt_iff₀ hpos]
    calc (num : ℚ) < 2 * 2 ^ (num.log2 : ℤ) := hnhigh
      _ = 2 ^ (num.log2 : ℤ) / 2 ^ (den.log2 : ℤ) * 2 * 2 ^ (den.log2 : ℤ) := by field_simp
      _ ≤ 2 ^ (num.log2 : ℤ) / 2 ^ (den.log2 : ℤ) * 2 * den := by gcongr

theorem zpow_guess (p : Nat) (g : ℤ) : (2 : ℚ) ^ (g + p) = 2 ^ p * 2 ^ g := by
  rw [zpow_add₀ (by norm_num), zpow_natCast, mul_comm]

/-- The exponent that is guessed from the lengths of numerator and denominator is off by one at
most, and a division tells. -/
theorem unitExponent_unitAt (f : Format) {num den : Nat} (hnum : 0 < num) (hden : 0 < den) :
    f.UnitAt ((num : ℚ) / den) (f.unitExponent num den) := by
  obtain ⟨hlow, hhigh⟩ := quotient_bounds hnum hden
  unfold unitExponent
  dsimp only
  generalize hguess : (num.log2 : ℤ) - den.log2 - f.fractionBits = g
  obtain ⟨hd, hratio⟩ := scale_ratio num hden g
  have hunit := two_zpow_pos g
  have hdpos : (0 : ℚ) < (scale num den g).2 := by exact_mod_cast hd
  have hbelow : (scale num den g).1 / (scale num den g).2 < twoTo f.fractionBits ↔
      (num : ℚ) / den < 2 ^ f.fractionBits * 2 ^ g := by
    rw [Nat.div_lt_iff_lt_mul hd, ← div_lt_iff₀ hunit, ← hratio, div_lt_iff₀ hdpos, ← cast_twoTo]
    exact_mod_cast Iff.rfl
  -- an exponent that bounds the quotient from both sides stays right when it is raised to the least
  have hraise : ∀ e : ℤ, (num : ℚ) / den < 2 ^ (f.fractionBits + 1) * 2 ^ e →
      2 ^ f.fractionBits * 2 ^ e ≤ (num : ℚ) / den →
      f.UnitAt ((num : ℚ) / den) (max f.leastExponent e) := by
    intro e habove hfull
    refine ⟨le_max_left _ _, lt_of_lt_of_le habove ?_, ?_⟩
    · have : (2 : ℚ) ^ e ≤ 2 ^ max f.leastExponent e :=
        zpow_le_zpow_right₀ (by norm_num) (le_max_right _ _)
      gcongr
    · rcases max_choice f.leastExponent e with h | h
      · exact .inl h
      · exact .inr (by rw [h]; exact hfull)
  split
  · rename_i hlt
    rw [hbelow] at hlt
    apply hraise
    · rw [pow_succ, mul_assoc, ← two_zpow_succ, sub_add_cancel]
      exact hlt
    · rw [← zpow_guess]
      have : g - 1 + f.fractionBits = (num.log2 : ℤ) - den.log2 - 1 := by omega
      rw [this]
      exact hlow.le
  · rename_i hge
    rw [hbelow, not_lt] at hge
    apply hraise
    · have : (2 : ℚ) ^ (f.fractionBits + 1) * 2 ^ g = 2 ^ ((num.log2 : ℤ) - den.log2 + 1) := by
        rw [← zpow_guess]
        congr 1
        push_cast
        omega
      rw [this]
      exact hhigh
    · exact hge

structure Canonical (f : Format) (m : Nat) (e : ℤ) : Prop where
  pos : 0 < m
  bound : m < 2 ^ (f.fractionBits + 1)
  least : f.leastExponent ≤ e
  full : e = f.leastExponent ∨ 2 ^ f.fractionBits ≤ m

/-- The distance, in units, to the middle below the value; the neighbour below a power of two is
nearer. -/
def marginBelow (f : Format) (m : Nat) (e : ℤ) : ℚ :=
  if m = 2 ^ f.fractionBits ∧ f.leastExponent < e then 1 / 4 else 1 / 2

/-- The quotient belongs to the value: it lies in the interval that the value is nearest in, with
the ends for an even mantissa. -/
structure Owns (f : Format) (m : Nat) (e : ℤ) (q : ℚ) : Prop where
  low : (m - f.marginBelow m e) * 2 ^ e ≤ q
  high : q ≤ (m + 1 / 2) * 2 ^ e
  tie : m % 2 = 0 ∨ (m - f.marginBelow m e) * 2 ^ e < q ∧ q < (m + 1 / 2) * 2 ^ e

variable {m : Nat}

theorem marginBelow_le (f : Format) (m : Nat) (e : ℤ) : f.marginBelow m e ≤ 1 / 2 := by
  unfold marginBelow
  split <;> norm_num

theorem roundQuotient_scale {num den k : Nat} (hden : 0 < den)
    (hlow : ((k : ℚ) - 1 / 2) * 2 ^ e ≤ num / den) (hhigh : (num : ℚ) / den ≤ (k + 1 / 2) * 2 ^ e)
    (htie : k % 2 = 0 ∨
      ((k : ℚ) - 1 / 2) * 2 ^ e < num / den ∧ (num : ℚ) / den < (k + 1 / 2) * 2 ^ e) :
    roundQuotient (scale num den e).1 (scale num den e).2 = k := by
  obtain ⟨hd, hratio⟩ := scale_ratio num hden e
  have hunit := two_zpow_pos e
  apply roundQuotient_of_near hd
  · rwa [hratio, le_div_iff₀ hunit]
  · rwa [hratio, div_le_iff₀ hunit]
  · rwa [hratio, lt_div_iff₀ hunit, div_lt_iff₀ hunit]

/-- What belongs to a value from below its unit belongs to a power of two. -/
theorem Owns.power_of_two (howns : f.Owns m e q) (hcanon : f.Canonical m e)
    (hleast : f.leastExponent < e) (hless : q < 2 ^ f.fractionBits * 2 ^ e) :
    m = 2 ^ f.fractionBits := by
  by_contra hne
  have hmin : 2 ^ f.fractionBits ≤ m := hcanon.full.resolve_left (Int.ne_of_gt hleast)
  have hmore : (2 : ℚ) ^ f.fractionBits + 1 ≤ m := by
    have : 2 ^ f.fractionBits + 1 ≤ m := by omega
    exact_mod_cast this
  have he := two_zpow_pos e
  have hmargin := f.marginBelow_le m e
  have hlow := howns.low
  have : (2 : ℚ) ^ f.fractionBits * 2 ^ e ≤ (m - f.marginBelow m e) * 2 ^ e := by
    gcongr
    linarith
  linarith

theorem two_zpow_pred (e : ℤ) : (2 : ℚ) ^ (e - 1) = 2 ^ e / 2 := by
  rw [zpow_sub_one₀ (by norm_num)]
  rfl

/-- Just below a power of two the unit is half as large, and the quotient is rounded up to it. -/
theorem round_below_power {num den : Nat} (hden : 0 < den) (hleast : f.leastExponent < e)
    (howns : f.Owns (2 ^ f.fractionBits) e ((num : ℚ) / den))
    (hless : (num : ℚ) / den < 2 ^ f.fractionBits * 2 ^ e) :
    f.UnitAt ((num : ℚ) / den) (e - 1) ∧
      roundQuotient (scale num den (e - 1)).1 (scale num den (e - 1)).2 =
        2 ^ (f.fractionBits + 1) := by
  have he := two_zpow_pos e
  have hmargin : f.marginBelow (2 ^ f.fractionBits) e = 1 / 4 := if_pos ⟨rfl, hleast⟩
  have hlow := howns.low
  rw [hmargin] at hlow
  push_cast at hlow
  have hdouble : (2 : ℚ) ^ (f.fractionBits + 1) = 2 * 2 ^ f.fractionBits := by ring
  have hpower : (1 : ℚ) ≤ 2 ^ f.fractionBits := one_le_pow₀ (by norm_num)
  constructor
  · refine ⟨by omega, ?_, .inr ?_⟩
    · rw [hdouble, two_zpow_pred]
      linarith
    · rw [two_zpow_pred]
      nlinarith
  · apply roundQuotient_scale hden
    · push_cast
      rw [hdouble, two_zpow_pred]
      linarith
    · push_cast
      rw [hdouble, two_zpow_pred]
      nlinarith
    · exact .inl (by omega)

/-- A quotient is rounded to the value that it belongs to. -/
theorem roundMagnitude_of_owns {num den : Nat} (hnum : 0 < num) (hden : 0 < den)
    (hcanon : f.Canonical m e) (howns : f.Owns m e ((num : ℚ) / den))
    (hfinite : (e - f.leastExponent).toNat * twoTo f.fractionBits + m < f.infinityBits) :
    f.roundMagnitude num den = (e - f.leastExponent).toNat * twoTo f.fractionBits + m := by
  have hunit := f.unitExponent_unitAt hnum hden
  have he := two_zpow_pos e
  rw [roundMagnitude, if_neg (Nat.ne_of_gt hnum)]
  dsimp only
  by_cases hfull : e = f.leastExponent ∨ 2 ^ f.fractionBits * 2 ^ e ≤ (num : ℚ) / den
  · have hbound : (m : ℚ) + 1 ≤ 2 ^ (f.fractionBits + 1) := by exact_mod_cast hcanon.bound
    have hown : f.UnitAt ((num : ℚ) / den) e := by
      refine ⟨hcanon.least, lt_of_le_of_lt howns.high ?_, hfull⟩
      gcongr
      linarith
    have hhalf : ((m : ℚ) - 1 / 2) * 2 ^ e ≤ (m - f.marginBelow m e) * 2 ^ e := by
      gcongr
      exact f.marginBelow_le m e
    rw [hunit.unique hown, roundQuotient_scale hden (hhalf.trans howns.low) howns.high
      (howns.tie.imp id fun h => ⟨lt_of_le_of_lt hhalf h.1, h.2⟩)]
    exact Nat.min_eq_left (Nat.le_of_lt hfinite)
  · obtain ⟨hnot, hless⟩ := not_or.1 hfull
    rw [not_le] at hless
    have hleast : f.leastExponent < e := lt_of_le_of_ne hcanon.least (Ne.symm hnot)
    obtain rfl := howns.power_of_two hcanon hleast hless
    obtain ⟨hbelow, hround⟩ := round_below_power hden hleast howns hless
    rw [hunit.unique hbelow, hround]
    have hfield : (e - f.leastExponent).toNat = (e - 1 - f.leastExponent).toNat + 1 := by omega
    have hsum : (e - 1 - f.leastExponent).toNat * twoTo f.fractionBits +
        2 ^ (f.fractionBits + 1) =
        (e - f.leastExponent).toNat * twoTo f.fractionBits + 2 ^ f.fractionBits := by
      rw [hfield, pow_succ, twoTo]
      simp only [Nat.pow_eq]
      ring
    rw [hsum]
    exact Nat.min_eq_left (Nat.le_of_lt hfinite)

end Format

end BlockConvert.Decimal
