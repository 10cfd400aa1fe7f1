import BlockConvert.Proofs.Decimal.Spelling

set_option autoImplicit false

/-!
# Floating point values are read back

The values of the formats lie far inside the range of decimals that is read without overflow. So the
text of every finite value, and of minus infinity, is read as the pattern that it was written from.
-/

namespace BlockConvert.Decimal

namespace Format

/-- The values of the format have at most 53 binary digits and exponents as small as those of
doubles. -/
structure Supported (f : Format) : Prop where
  fraction : f.fractionBits ≤ 52
  least : -1074 ≤ f.leastExponent
  greatest : f.leastExponent + f.topExponent + f.fractionBits ≤ 1025

theorem single_supported : single.Supported := ⟨by decide, by decide, by decide⟩

theorem double_supported : double.Supported := ⟨by decide, by decide, by decide⟩

variable {f : Format} {m : Nat} {e : ℤ} {q : ℚ}

theorem exponent_lt (h : f.magnitude m e < f.infinityBits) :
    e < f.leastExponent + f.topExponent := by
  unfold magnitude infinityBits at h
  have hlt : (e - f.leastExponent).toNat < f.topExponent :=
    Nat.lt_of_mul_lt_mul_right (Nat.lt_of_le_of_lt (Nat.le_add_right _ _) h)
  omega

theorem owns_lower (hf : f.Supported) (hcanon : f.Canonical m e) (howns : f.Owns m e q) :
    (10 : ℚ) ^ (-400 : ℤ) < q := by
  have hmargin := f.marginBelow_le m e
  have hm : (1 : ℚ) ≤ m := by exact_mod_cast hcanon.pos
  calc (10 : ℚ) ^ (-400 : ℤ) < 8 ^ (-400 : ℤ) := by
        rw [zpow_neg, zpow_neg]
        exact inv_strictAnti₀ (by positivity)
          (zpow_lt_zpow_left₀ (by norm_num) (by norm_num) (by norm_num))
    _ = 2 ^ (-1200 : ℤ) := by
        rw [show (8 : ℚ) = 2 ^ (3 : ℤ) by norm_num, ← zpow_mul]
        norm_num
    _ ≤ 2 ^ (e - 1) := by
        have := hf.least
        have := hcanon.least
        exact zpow_le_zpow_right₀ (by norm_num) (by omega)
    _ = 1 / 2 * 2 ^ e := by
        rw [zpow_sub_one₀ (by norm_num)]
        ring
    _ ≤ (m - f.marginBelow m e) * 2 ^ e := by
        have := two_zpow_pos e
        gcongr
        linarith
    _ ≤ q := howns.low

theorem owns_upper (hf : f.Supported) (hcanon : f.Canonical m e)
    (hfinite : f.magnitude m e < f.infinityBits) (howns : f.Owns m e q) :
    q < (10 : ℚ) ^ (399 : ℤ) := by
  have hbound : (m : ℚ) + 1 ≤ 2 ^ (f.fractionBits + 1) := by exact_mod_cast hcanon.bound
  have hexponent := exponent_lt hfinite
  have hgreatest := hf.greatest
  calc q ≤ (m + 1 / 2) * 2 ^ e := howns.high
    _ ≤ 2 ^ (f.fractionBits + 1) * 2 ^ e := by
        have := two_zpow_pos e
        gcongr
        linarith
    _ = 2 ^ (f.fractionBits + 1 + e) := by
        rw [zpow_add₀ (by norm_num), ← zpow_natCast]
        push_cast
        rfl
    _ ≤ 2 ^ (1197 : ℤ) := zpow_le_zpow_right₀ (by norm_num) (by omega)
    _ = 8 ^ (399 : ℤ) := by
        rw [show (8 : ℚ) = 2 ^ (3 : ℤ) by norm_num, ← zpow_mul]
        norm_num
    _ < 10 ^ (399 : ℤ) := zpow_lt_zpow_left₀ (by norm_num) (by norm_num) (by norm_num)

end Format

namespace Literal

variable {f : Format} {m n : Nat} {e x : ℤ} {negative : Bool}

/-- A decimal within the range is rounded as it is. -/
theorem bits_number (hn : 0 < n) (hlow : (10 : ℚ) ^ (-400 : ℤ) < (⟨n, x⟩ : Scientific).toRat)
    (hhigh : (⟨n, x⟩ : Scientific).toRat < (10 : ℚ) ^ (399 : ℤ)) :
    bits f negative (.number n x) =
      f.round negative (n * tenTo x.toNat) (tenTo (-x).toNat) := by
  obtain ⟨hfirst, hlast⟩ := Interval.digits_bounds hn
  have hlength : 0 < (Nat.toDigits 10 n).length := Nat.length_toDigits_pos
  have hx := ten_zpow_pos x
  simp only [Scientific.toRat] at hlow hhigh
  unfold bits
  dsimp only
  generalize (Nat.toDigits 10 n).length = length at *
  have hbelow : (10 : ℚ) ^ (-400 : ℤ) < 10 ^ ((length : ℤ) + x) := by
    refine hlow.trans ?_
    rw [zpow_add₀ (by norm_num), zpow_natCast]
    gcongr
    exact_mod_cast hlast
  have habove : (10 : ℚ) ^ (((length - 1 : Nat) : ℤ) + x) < 10 ^ (399 : ℤ) := by
    refine lt_of_le_of_lt ?_ hhigh
    rw [zpow_add₀ (by norm_num), zpow_natCast]
    gcongr
    exact_mod_cast hfirst
  have hleast : -400 < (length : ℤ) + x := (zpow_lt_zpow_iff_right₀ (by norm_num)).1 hbelow
  have hgreatest : ((length - 1 : Nat) : ℤ) + x < 399 :=
    (zpow_lt_zpow_iff_right₀ (by norm_num)).1 habove
  rw [if_neg (by unfold farExponent; omega), if_neg (by unfold farExponent; omega)]

/-- A decimal that belongs to a value of the format is read as its pattern. -/
theorem bits_of_owns (hf : f.Supported) (hcanon : f.Canonical m e)
    (hfinite : f.magnitude m e < f.infinityBits)
    (howns : f.Owns m e (⟨n, x⟩ : Scientific).toRat) :
    bits f negative (.number n x) = f.pattern negative (f.magnitude m e) := by
  have hlow := Format.owns_lower hf hcanon howns
  have hhigh := Format.owns_upper hf hcanon hfinite howns
  have hn : 0 < n := by
    rcases Nat.eq_zero_or_pos n with rfl | hpos
    · have := ten_zpow_pos (-400)
      simp only [Scientific.toRat, Nat.cast_zero, zero_mul] at hlow
      linarith
    · exact hpos
  have hratio : (((n * tenTo x.toNat : Nat) : ℚ) / (tenTo (-x).toNat : Nat)) =
      (⟨n, x⟩ : Scientific).toRat := by
    rw [Nat.cast_mul, mul_div_assoc, tenTo_ratio]
    rfl
  rw [bits_number hn hlow hhigh, Format.round, Format.roundMagnitude_of_owns
    (Nat.mul_pos hn (tenTo_pos _)) (tenTo_pos _) hcanon (by rw [hratio]; exact howns) hfinite]
  rfl

end Literal

namespace Format

variable {f : Format} {bits : Nat}

/-- The pattern is a finite value or minus infinity. -/
def HasText (f : Format) (bits : Nat) : Prop :=
  (∃ negative m e, f.decode bits = .finite negative m e) ∨ f.decode bits = .infinite true

/-- A sign and a numeral, or the word for minus infinity. -/
def Spells (cs : List Char) : Prop :=
  (∃ (negative : Bool) (ds : List Char),
    Notation.Numeral ds ∧ cs = (if negative then ['-'] else []) ++ ds) ∨ cs = ['-', 'i', 'n', 'f']

theorem text_zero (hf : f.Fits bits) {negative : Bool}
    (h : f.decode bits = .finite negative 0 f.leastExponent) :
    Spells (Notation.tagged.text f (f.decode bits)) ∧
      floating? f (Notation.tagged.text f (f.decode bits)) = some bits := by
  obtain ⟨hpattern, -, -⟩ := decode_finite hf h
  have hnumeral : Notation.Numeral ['0', '.', '0'] := ⟨⟨'0', rfl, rfl⟩, by simp⟩
  have hread : Literal.number? ['0', '.', '0'] = some (.number 0 (-1)) :=
    Literal.number?_pointed [] (allDigits_zeros 1) (allDigits_zeros 1) (by simp) (by simp)
      (foldDigits_zeros 0 2) rfl
  have htext : Notation.tagged.text f (f.decode bits) =
      (if negative then ['-'] else []) ++ ['0', '.', '0'] := by
    simp [h, Notation.text, Notation.tagged]
  have hzero : f.magnitude 0 f.leastExponent = 0 := by simp [magnitude]
  rw [htext]
  refine ⟨.inl ⟨negative, _, hnumeral, rfl⟩, ?_⟩
  rw [hzero] at hpattern
  rw [floating?, Literal.splitSign_of_numeral hnumeral, hpattern]
  simp only [Literal.read?_of_numeral hnumeral, hread, Option.map_some, Literal.bits, true_or,
    if_true]
  rfl

theorem text_positive (hf : f.Supported) (hfits : f.Fits bits) {negative : Bool} {m : Nat} {e : ℤ}
    (h : f.decode bits = .finite negative m e) (hcanon : f.Canonical m e) :
    Spells (Notation.tagged.text f (f.decode bits)) ∧
      floating? f (Notation.tagged.text f (f.decode bits)) = some bits := by
  obtain ⟨hpattern, hfinite, -⟩ := decode_finite hfits h
  have hne : m ≠ 0 := Nat.ne_of_gt hcanon.pos
  obtain ⟨n, x, hread, hvalue⟩ := Notation.spelledAs_magnitudeText (shortest f m e)
  have hnumeral := Notation.numeral_magnitudeText (shortest f m e)
  have howns := shortest_owns hf.fraction hcanon
  rw [← hvalue] at howns
  have htext : Notation.tagged.text f (f.decode bits) =
      (if negative then ['-'] else []) ++ Notation.tagged.magnitudeText (shortest f m e) := by
    simp only [h, Notation.text, if_neg hne]
  rw [htext]
  refine ⟨.inl ⟨negative, _, hnumeral, rfl⟩, ?_⟩
  rw [floating?, Literal.splitSign_of_numeral hnumeral]
  simp only [Literal.read?_of_numeral hnumeral, hread, Option.map_some,
    Literal.bits_of_owns hf hcanon hfinite howns, ← hpattern]

theorem text_minusInfinity (hfits : f.Fits bits) (h : f.decode bits = .infinite true) :
    Spells (Notation.tagged.text f (f.decode bits)) ∧
      floating? f (Notation.tagged.text f (f.decode bits)) = some bits := by
  have hread : Literal.read? ['i', 'n', 'f'] = some .infinity := by decide
  have hpattern := decode_infinite hfits h
  rw [h]
  refine ⟨.inr rfl, ?_⟩
  show (Literal.read? ['i', 'n', 'f']).map (Literal.bits f true) = some bits
  rw [hread, hpattern]
  rfl

/-- The text of a value is read back. -/
theorem floating?_text (hf : f.Supported) (hfits : f.Fits bits) (h : f.HasText bits) :
    Spells (Notation.tagged.text f (f.decode bits)) ∧
      floating? f (Notation.tagged.text f (f.decode bits)) = some bits := by
  rcases h with ⟨negative, m, e, hfinite⟩ | hinfinite
  · obtain ⟨-, -, hm⟩ := decode_finite hfits hfinite
    rcases hm with ⟨rfl, rfl⟩ | hcanon
    · exact text_zero hfits hfinite
    · exact text_positive hf hfits hfinite hcanon
  · exact text_minusInfinity hfits hinfinite

end Format

end BlockConvert.Decimal
