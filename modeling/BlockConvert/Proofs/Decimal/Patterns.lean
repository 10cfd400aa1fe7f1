import BlockConvert.Proofs.Decimal.Rounding

set_option autoImplicit false

/-!
# The parts of a bit pattern

A pattern is made up of a sign, a field for the exponent and a fraction. What it means tells all
three, so that it can be put together again.
-/

namespace BlockConvert.Decimal.Format

def magnitude (f : Format) (m : Nat) (e : ℤ) : Nat :=
  (e - f.leastExponent).toNat * twoTo f.fractionBits + m

def pattern (f : Format) (negative : Bool) (magnitude : Nat) : Nat :=
  (if negative then f.signBit else 0) + magnitude

def Fits (f : Format) (bits : Nat) : Prop := bits < 2 * f.signBit

variable {f : Format} {bits m : Nat} {e : ℤ} {negative : Bool}

theorem signBit_eq (f : Format) : f.signBit = twoTo f.fractionBits * twoTo f.exponentBits :=
  Nat.pow_add 2 f.fractionBits f.exponentBits

theorem pattern_eq (h : f.Fits bits) :
    bits = f.pattern (bits / f.signBit % 2 == 1)
      (bits / twoTo f.fractionBits % twoTo f.exponentBits * twoTo f.fractionBits +
        bits % twoTo f.fractionBits) := by
  have hsign : 0 < f.signBit := twoTo_pos _
  have hlt : bits / f.signBit < 2 := Nat.div_lt_of_lt_mul (by rw [Nat.mul_comm]; exact h)
  have hdiv : bits / twoTo f.fractionBits / twoTo f.exponentBits = bits / f.signBit := by
    rw [Nat.div_div_eq_div_mul, ← signBit_eq]
  have hquotient : bits / twoTo f.fractionBits = twoTo f.exponentBits * (bits / f.signBit) +
      bits / twoTo f.fractionBits % twoTo f.exponentBits := by
    rw [← hdiv]
    exact (Nat.div_add_mod _ _).symm
  have hbits : bits = f.signBit * (bits / f.signBit) +
      (bits / twoTo f.fractionBits % twoTo f.exponentBits * twoTo f.fractionBits +
        bits % twoTo f.fractionBits) := by
    calc bits = twoTo f.fractionBits * (bits / twoTo f.fractionBits) +
          bits % twoTo f.fractionBits := (Nat.div_add_mod _ _).symm
      _ = twoTo f.fractionBits * (twoTo f.exponentBits * (bits / f.signBit) +
          bits / twoTo f.fractionBits % twoTo f.exponentBits) + bits % twoTo f.fractionBits := by
          rw [← hquotient]
      _ = _ := by
          rw [signBit_eq]
          ring
  rcases Nat.le_one_iff_eq_zero_or_eq_one.1 (Nat.le_of_lt_succ hlt) with hzero | hone
  · rw [hzero, Nat.mul_zero, Nat.zero_add] at hbits
    rw [pattern, hzero]
    simpa using hbits
  · rw [hone, Nat.mul_one] at hbits
    rw [pattern, hone]
    simpa using hbits

theorem decode_infinite (hfits : f.Fits bits) (h : f.decode bits = .infinite negative) :
    bits = f.pattern negative f.infinityBits := by
  have hpattern := pattern_eq hfits
  unfold decode at h
  dsimp only at h
  split at h
  · rename_i hfield
    split at h
    · rename_i hfraction
      rw [hfield, hfraction] at hpattern
      cases h
      exact hpattern
    · contradiction
  · split at h <;> contradiction

theorem decode_finite (hfits : f.Fits bits) (h : f.decode bits = .finite negative m e) :
    bits = f.pattern negative (f.magnitude m e) ∧ f.magnitude m e < f.infinityBits ∧
      (m = 0 ∧ e = f.leastExponent ∨ f.Canonical m e) := by
  have hpattern := pattern_eq hfits
  have hfraction : bits % twoTo f.fractionBits < twoTo f.fractionBits :=
    Nat.mod_lt _ (twoTo_pos _)
  have hfield : bits / twoTo f.fractionBits % twoTo f.exponentBits < twoTo f.exponentBits :=
    Nat.mod_lt _ (twoTo_pos _)
  have htwice : 2 ^ (f.fractionBits + 1) = 2 * twoTo f.fractionBits := by
    rw [pow_succ, Nat.mul_comm]
    rfl
  unfold decode at h
  dsimp only at h
  generalize bits % twoTo f.fractionBits = fraction at *
  generalize bits / twoTo f.fractionBits % twoTo f.exponentBits = field at *
  split at h
  · split at h <;> contradiction
  · rename_i htop
    have hbelow : field * twoTo f.fractionBits + fraction < f.infinityBits := by
      have hless : field + 1 ≤ f.topExponent := by
        unfold topExponent at htop ⊢
        omega
      have hmul := Nat.mul_le_mul_right (twoTo f.fractionBits) hless
      rw [Nat.succ_mul] at hmul
      unfold infinityBits
      omega
    split at h
    · rename_i hzero
      cases h
      have hmagnitude : f.magnitude m f.leastExponent = field * twoTo f.fractionBits + m := by
        simp [magnitude, hzero]
      rw [hmagnitude]
      refine ⟨hpattern, hbelow, ?_⟩
      rcases Nat.eq_zero_or_pos m with hm | hm
      · exact .inl ⟨hm, rfl⟩
      · exact .inr ⟨hm, by omega, le_refl _, .inl rfl⟩
    · rename_i hzero
      cases h
      have hexponent : (f.leastExponent + field - 1 - f.leastExponent).toNat = field - 1 := by omega
      have hmagnitude : f.magnitude (twoTo f.fractionBits + fraction)
          (f.leastExponent + field - 1) = field * twoTo f.fractionBits + fraction := by
        obtain ⟨n, rfl⟩ := Nat.exists_eq_succ_of_ne_zero hzero
        rw [magnitude, hexponent, Nat.succ_sub_one, Nat.succ_mul, Nat.add_assoc]
      rw [hmagnitude]
      refine ⟨hpattern, hbelow, .inr ⟨?_, ?_, ?_, .inr ?_⟩⟩
      · have := twoTo_pos f.fractionBits
        omega
      · omega
      · omega
      · exact Nat.le_add_right _ _

end BlockConvert.Decimal.Format
