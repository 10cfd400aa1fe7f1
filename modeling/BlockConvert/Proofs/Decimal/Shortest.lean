import BlockConvert.Decimal.Shortest
import BlockConvert.Proofs.Decimal.Rounding

set_option autoImplicit false

/-!
# Shortest decimals lie in their interval

The search over grids of 1, 2, … digits ends with a decimal in the interval of the value: on the
grid of 17 digits the interval is wider than a step, and then it holds a neighbour of the value. So
what is printed is rounded to the value again.
-/

namespace BlockConvert.Decimal

theorem ten_zpow_pos (k : ℤ) : (0 : ℚ) < 10 ^ k := zpow_pos (by norm_num) k

theorem cast_tenTo (n : Nat) : ((tenTo n : Nat) : ℚ) = 10 ^ n := by
  rw [tenTo]
  exact Nat.cast_pow 10 n

theorem tenTo_ratio (k : ℤ) :
    ((tenTo k.toNat : Nat) : ℚ) / (tenTo (-k).toNat : Nat) = 10 ^ k := by
  rw [cast_tenTo, cast_tenTo, ← zpow_natCast, ← zpow_natCast, ← zpow_sub₀ (by norm_num)]
  congr 1
  omega

theorem twoTo_ratio (k : ℤ) :
    ((twoTo k.toNat : Nat) : ℚ) / (twoTo (-k).toNat : Nat) = 2 ^ k := by
  rw [Format.cast_twoTo, Format.cast_twoTo, ← zpow_natCast, ← zpow_natCast,
    ← zpow_sub₀ (by norm_num)]
  congr 1
  omega

namespace Scientific

def toRat (s : Scientific) : ℚ := s.digits * 10 ^ s.exponent

theorem toRat_strip (bound : Nat) (s : Scientific) : (s.strip bound).toRat = s.toRat := by
  induction bound generalizing s with
  | zero => rfl
  | succ bound ih =>
    rw [strip]
    split
    · rename_i h
      rw [ih, toRat, toRat]
      have hdigits : s.digits = s.digits / 10 * 10 := by omega
      have hcast : (s.digits : ℚ) = (s.digits / 10 : Nat) * 10 := by
        exact_mod_cast congrArg (Nat.cast (R := ℚ)) hdigits
      rw [hcast, zpow_add_one₀ (by norm_num)]
      ring
    · rfl

end Scientific

namespace Interval

variable {i : Interval} {q : ℚ} {n : Nat}

structure Within (i : Interval) (q : ℚ) : Prop where
  low : (i.low : ℚ) / i.den ≤ q
  high : q ≤ (i.high : ℚ) / i.den
  tie : i.closed = true ∨ (i.low : ℚ) / i.den < q ∧ q < (i.high : ℚ) / i.den

theorem contains_iff (hden : 0 < i.den) : i.contains n = true ↔ i.Within n := by
  have hpos : (0 : ℚ) < i.den := by exact_mod_cast hden
  have hlow : i.low ≤ n * i.den ↔ (i.low : ℚ) / i.den ≤ n := by
    rw [div_le_iff₀ hpos]
    exact_mod_cast Iff.rfl
  have hhigh : n * i.den ≤ i.high ↔ (n : ℚ) ≤ i.high / i.den := by
    rw [le_div_iff₀ hpos]
    exact_mod_cast Iff.rfl
  have hlow' : i.low < n * i.den ↔ (i.low : ℚ) / i.den < n := by
    rw [div_lt_iff₀ hpos]
    exact_mod_cast Iff.rfl
  have hhigh' : n * i.den < i.high ↔ (n : ℚ) < i.high / i.den := by
    rw [lt_div_iff₀ hpos]
    exact_mod_cast Iff.rfl
  unfold contains
  cases hclosed : i.closed with
  | true =>
    simp only [if_true, decide_eq_true_eq, hlow, hhigh]
    exact ⟨fun h => ⟨h.1, h.2, .inl hclosed⟩, fun h => ⟨h.low, h.high⟩⟩
  | false =>
    simp only [Bool.false_eq_true, if_false, decide_eq_true_eq, hlow', hhigh']
    refine ⟨fun h => ⟨h.1.le, h.2.le, .inr h⟩, fun h => ?_⟩
    rcases h.tie with htrue | hstrict
    · rw [hclosed] at htrue
      contradiction
    · exact hstrict

theorem neighbour?_contains (h : i.neighbour? = some n) : i.contains n = true := by
  unfold neighbour? at h
  dsimp only at h
  split at h
  · split at h <;> cases h <;> assumption
  · cases h
    assumption
  · cases h
    assumption
  · contradiction

/-- In an interval wider than one unit around the value, one of its two neighbours lies. -/
theorem neighbour?_isSome (hden : 0 < i.den) (hlow : (i.low : ℚ) / i.den < i.value / i.den)
    (hhigh : (i.value : ℚ) / i.den < i.high / i.den)
    (hwide : 1 < (i.high : ℚ) / i.den - i.low / i.den) : i.neighbour?.isSome = true := by
  have hpos : (0 : ℚ) < i.den := by exact_mod_cast hden
  have hfloor : ((i.value / i.den : Nat) : ℚ) ≤ i.value / i.den := Nat.cast_div_le
  have hceil : (i.value : ℚ) / i.den < ((i.value / i.den + 1 : Nat) : ℚ) := by
    rw [div_lt_iff₀ hpos]
    exact_mod_cast Nat.lt_mul_of_div_lt (Nat.lt_succ_self _) hden
  have hone : i.contains (i.value / i.den) = true ∨ i.contains (i.value / i.den + 1) = true := by
    rw [contains_iff hden, contains_iff hden]
    by_cases h : (i.low : ℚ) / i.den < (i.value / i.den : Nat)
    · exact .inl ⟨h.le, hfloor.trans hhigh.le, .inr ⟨h, lt_of_le_of_lt hfloor hhigh⟩⟩
    · rw [not_lt] at h
      have hup : ((i.value / i.den + 1 : Nat) : ℚ) < i.high / i.den := by
        push_cast
        linarith
      exact .inr ⟨(hlow.trans hceil).le, hup.le, .inr ⟨hlow.trans hceil, hup⟩⟩
  unfold neighbour?
  dsimp only
  split <;> simp_all

theorem inUnits_den (hden : 0 < i.den) (k : ℤ) : 0 < (i.inUnits k).den :=
  Nat.mul_pos hden (tenTo_pos _)

theorem inUnits_ratio (i : Interval) (k : ℤ) (n : Nat) :
    ((n * tenTo (-k).toNat : Nat) : ℚ) / ((i.inUnits k).den : Nat) = n / i.den / 10 ^ k := by
  have hten := tenTo_ratio k
  have hpos : (0 : ℚ) < (tenTo (-k).toNat : Nat) := by exact_mod_cast tenTo_pos _
  have hpos' : (0 : ℚ) < (tenTo k.toNat : Nat) := by exact_mod_cast tenTo_pos _
  rw [← hten]
  simp only [inUnits, Nat.cast_mul]
  field_simp

theorem within_inUnits (i : Interval) (k : ℤ) :
    (i.inUnits k).Within q ↔ i.Within (q * 10 ^ k) := by
  have hk := ten_zpow_pos k
  have hlow : ((i.inUnits k).low : ℚ) / (i.inUnits k).den = i.low / i.den / 10 ^ k :=
    inUnits_ratio i k i.low
  have hhigh : ((i.inUnits k).high : ℚ) / (i.inUnits k).den = i.high / i.den / 10 ^ k :=
    inUnits_ratio i k i.high
  constructor
  · rintro ⟨hl, hh, ht⟩
    rw [hlow, div_le_iff₀ hk] at hl
    rw [hhigh, le_div_iff₀ hk] at hh
    rw [hlow, hhigh, div_lt_iff₀ hk, lt_div_iff₀ hk] at ht
    exact ⟨hl, hh, ht⟩
  · rintro ⟨hl, hh, ht⟩
    refine ⟨?_, ?_, ?_⟩
    · rwa [hlow, div_le_iff₀ hk]
    · rwa [hhigh, le_div_iff₀ hk]
    · rwa [hlow, hhigh, div_lt_iff₀ hk, lt_div_iff₀ hk]

/-- The search ends with a decimal in the interval, if one of the grids has a neighbour in it. -/
theorem search_within (hden : 0 < i.den) {magnitude : ℤ} (last : Nat)
    (hlast : (i.inUnits (magnitude - last)).neighbour?.isSome = true) (tries count : Nat)
    (hle : count ≤ last) (hlt : last < count + tries) :
    i.Within (i.search magnitude tries count).toRat := by
  induction tries generalizing count with
  | zero => omega
  | succ tries ih =>
    rw [search]
    split
    · rename_i n hn
      have hcontains := neighbour?_contains hn
      rw [contains_iff (inUnits_den hden _), within_inUnits] at hcontains
      exact hcontains
    · rename_i hnone
      have hne : count ≠ last := by
        rintro rfl
        rw [hnone] at hlast
        contradiction
      exact ih (count + 1) (by omega) (by omega)

theorem digits_bounds {n : Nat} (h : 0 < n) :
    10 ^ ((Nat.toDigits 10 n).length - 1) ≤ n ∧ n < 10 ^ (Nat.toDigits 10 n).length := by
  have hlength : 0 < (Nat.toDigits 10 n).length := Nat.length_toDigits_pos
  constructor
  · by_contra hlt
    rw [not_le] at hlt
    rcases Nat.eq_zero_or_pos ((Nat.toDigits 10 n).length - 1) with hzero | hpos
    · rw [hzero] at hlt
      omega
    · have := (Nat.length_toDigits_le_iff (by decide) hpos).2 hlt
      omega
  · exact (Nat.length_toDigits_le_iff (by decide) hlength).1 (le_refl _)

theorem magnitude_le (hvalue : 0 < i.value) (hden : 0 < i.den) :
    (10 : ℚ) ^ (i.magnitude - 1) ≤ i.value / i.den := by
  have hpos : (0 : ℚ) < i.den := by exact_mod_cast hden
  have hvpos : (0 : ℚ) < i.value := by exact_mod_cast hvalue
  unfold magnitude
  split
  · rename_i hle
    have hquotient : 0 < i.value / i.den := Nat.div_pos hle hden
    have hfirst := (digits_bounds hquotient).1
    have hlength : 0 < (Nat.toDigits 10 (i.value / i.den)).length := Nat.length_toDigits_pos
    have hcast : ((Nat.toDigits 10 (i.value / i.den)).length : ℤ) - 1 =
        ((Nat.toDigits 10 (i.value / i.den)).length - 1 : Nat) := by omega
    rw [hcast, zpow_natCast]
    calc (10 : ℚ) ^ ((Nat.toDigits 10 (i.value / i.den)).length - 1)
        ≤ (i.value / i.den : Nat) := by exact_mod_cast hfirst
      _ ≤ i.value / i.den := Nat.cast_div_le
  · rename_i hlt
    rw [not_le] at hlt
    dsimp only
    generalize hzeros : (Nat.toDigits 10 (i.den / i.value)).length = zeros
    have hquotient : 0 < i.den / i.value := Nat.div_pos hlt.le hvalue
    split
    · rename_i hexact
      have hone : 1 ≤ zeros := by
        rw [← hzeros]
        exact Nat.length_toDigits_pos
      have hexponent : (2 : ℤ) - zeros - 1 = -((zeros - 1 : Nat) : ℤ) := by omega
      rw [hexponent, zpow_neg, zpow_natCast, ← cast_tenTo, ← hexact, Nat.cast_mul]
      have htenpos : (0 : ℚ) < (tenTo (zeros - 1) : Nat) := by exact_mod_cast tenTo_pos _
      apply le_of_eq
      field_simp
    · have hlast := (digits_bounds hquotient).2
      rw [hzeros] at hlast
      have hmul : i.den < i.value * 10 ^ zeros := by
        rw [Nat.mul_comm]
        exact Nat.lt_mul_of_div_lt hlast hvalue
      have hexponent : (1 : ℤ) - zeros - 1 = -(zeros : ℤ) := by omega
      rw [hexponent, zpow_neg, zpow_natCast, le_div_iff₀ hpos, inv_mul_le_iff₀ (by positivity),
        mul_comm]
      exact_mod_cast hmul.le

variable {f : Format} {m : Nat} {e : ℤ}

theorem ofFinite_den : 0 < (ofFinite f m e).den := twoTo_pos _

theorem quarters (e : ℤ) (n : Nat) :
    ((n * twoTo (e - 2).toNat : Nat) : ℚ) / (twoTo (2 - e).toNat : Nat) = n / 4 * 2 ^ e := by
  have hratio := twoTo_ratio (e - 2)
  have hneg : -(e - 2) = 2 - e := by omega
  rw [hneg] at hratio
  rw [Nat.cast_mul, mul_div_assoc, hratio, zpow_sub₀ (by norm_num)]
  norm_num
  ring

theorem ofFinite_value : ((ofFinite f m e).value : ℚ) / (ofFinite f m e).den = m * 2 ^ e := by
  have h := quarters e (4 * m)
  simp only [ofFinite]
  rw [h]
  push_cast
  ring

theorem ofFinite_high :
    ((ofFinite f m e).high : ℚ) / (ofFinite f m e).den = (m + 1 / 2) * 2 ^ e := by
  have h := quarters e (4 * m + 2)
  simp only [ofFinite]
  rw [h]
  push_cast
  ring

theorem ofFinite_low (hm : 0 < m) :
    ((ofFinite f m e).low : ℚ) / (ofFinite f m e).den = (m - f.marginBelow m e) * 2 ^ e := by
  have hcond : (m = twoTo f.fractionBits ∧ f.leastExponent < e) ↔
      (m = 2 ^ f.fractionBits ∧ f.leastExponent < e) := Iff.rfl
  unfold Format.marginBelow
  simp only [ofFinite, quarters, hcond]
  split
  · rw [Nat.cast_sub (by omega)]
    push_cast
    ring
  · rw [Nat.cast_sub (by omega)]
    push_cast
    ring

theorem ofFinite_within (hm : 0 < m) {q : ℚ} :
    (ofFinite f m e).Within q → f.Owns m e q := by
  rintro ⟨hl, hh, ht⟩
  have hclosed : (ofFinite f m e).closed = true ↔ m % 2 = 0 := by simp [ofFinite]
  rw [ofFinite_low hm] at hl
  rw [ofFinite_high] at hh
  rw [ofFinite_low hm, ofFinite_high, hclosed] at ht
  exact ⟨hl, hh, ht⟩

theorem marginBelow_pos (f : Format) (m : Nat) (e : ℤ) : 0 < f.marginBelow m e := by
  unfold Format.marginBelow
  split <;> norm_num

/-- On the grid of 17 digits the interval of a value with at most 53 binary digits is wider than a
step. -/
theorem neighbour?_seventeen (hfraction : f.fractionBits ≤ 52) (hcanon : f.Canonical m e) :
    (((ofFinite f m e).inUnits ((ofFinite f m e).magnitude - 17)).neighbour?).isSome = true := by
  have hm := hcanon.pos
  have he := Format.two_zpow_pos e
  have hmargin := marginBelow_pos f m e
  have hmcast : (0 : ℚ) < m := by exact_mod_cast hm
  have hvalue : 0 < (ofFinite f m e).value :=
    Nat.mul_pos (Nat.mul_pos (by decide) hm) (twoTo_pos _)
  have hleast := magnitude_le hvalue (ofFinite_den (f := f))
  rw [ofFinite_value] at hleast
  generalize hk : (ofFinite f m e).magnitude - 17 = k
  have hstep : (10 : ℚ) ^ k * 10 ^ 16 ≤ m * 2 ^ e := by
    refine le_trans (le_of_eq ?_) hleast
    rw [← hk, ← zpow_natCast, ← zpow_add₀ (by norm_num)]
    congr 1
    push_cast
    omega
  have hkpos := ten_zpow_pos k
  have hlow := inUnits_ratio (ofFinite f m e) k (ofFinite f m e).low
  have hval := inUnits_ratio (ofFinite f m e) k (ofFinite f m e).value
  have hhigh := inUnits_ratio (ofFinite f m e) k (ofFinite f m e).high
  rw [ofFinite_low hm] at hlow
  rw [ofFinite_value] at hval
  rw [ofFinite_high] at hhigh
  apply neighbour?_isSome (inUnits_den ofFinite_den k)
  · refine (hlow.trans_lt ?_).trans_eq hval.symm
    gcongr
    linarith
  · refine (hval.trans_lt ?_).trans_eq hhigh.symm
    gcongr
    linarith
  · refine lt_of_lt_of_eq ?_ (congrArg₂ (· - ·) hhigh.symm hlow.symm)
    rw [← sub_div, lt_div_iff₀ hkpos, one_mul, ← sub_mul]
    have hbits : (m : ℚ) < 2 ^ 53 := by
      have hpower : 2 ^ (f.fractionBits + 1) ≤ 2 ^ 53 :=
        Nat.pow_le_pow_right (by decide) (by omega)
      exact_mod_cast lt_of_lt_of_le hcanon.bound hpower
    unfold Format.marginBelow
    split
    · rename_i hpower
      have hhalf : (m : ℚ) ≤ 2 ^ 52 := by
        have : 2 ^ f.fractionBits ≤ 2 ^ 52 := Nat.pow_le_pow_right (by decide) hfraction
        rw [hpower.1]
        exact_mod_cast this
      nlinarith
    · nlinarith

end Interval

/-- The shortest decimal of a value is rounded to the value. -/
theorem shortest_owns {f : Format} {m : Nat} {e : ℤ} (hfraction : f.fractionBits ≤ 52)
    (hcanon : f.Canonical m e) : f.Owns m e (shortest f m e).toRat := by
  have hsome := Interval.neighbour?_seventeen hfraction hcanon
  have hwithin := Interval.search_within Interval.ofFinite_den 17 hsome 17 1 (by decide) (by decide)
  unfold shortest
  dsimp only
  rw [Scientific.toRat_strip]
  exact Interval.ofFinite_within hcanon.pos hwithin

end BlockConvert.Decimal
