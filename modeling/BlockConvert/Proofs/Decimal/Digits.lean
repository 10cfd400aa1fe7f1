import BlockConvert.Decimal.Natural
import BlockConvert.Decimal.Power

set_option autoImplicit false

/-!
# Digits read back

A text of digits has a value, and the digits of a number have the number as their value. A signed
integer is read from its text, in every word that holds it.
-/

namespace BlockConvert.Decimal

def AllDigits (cs : List Char) : Prop := ∀ c ∈ cs, c.isDigit = true

variable {cs ds : List Char}

theorem AllDigits.append (hcs : AllDigits cs) (hds : AllDigits ds) : AllDigits (cs ++ ds) :=
  fun c hc => (List.mem_append.1 hc).elim (hcs c) (hds c)

theorem allDigits_zeros (n : Nat) : AllDigits (List.replicate n '0') := by
  intro c hc
  rw [List.eq_of_mem_replicate hc]
  rfl

theorem allDigits_digits (n : Nat) : AllDigits (digits n) :=
  fun _ hc => Nat.isDigit_of_mem_toDigits (by decide) (by decide) hc

theorem digits_ne_nil (n : Nat) : digits n ≠ [] := Nat.toDigits_ne_nil

theorem foldDigits_append (acc : Nat) (cs ds : List Char) :
    foldDigits acc (cs ++ ds) = (foldDigits acc cs).bind fun n => foldDigits n ds := by
  induction cs generalizing acc with
  | nil => rfl
  | cons c rest ih =>
    simp only [List.cons_append, foldDigits]
    split
    · exact ih _
    · rfl

theorem foldDigits_eq (acc : Nat) (hcs : AllDigits cs) :
    foldDigits acc cs = some (Nat.ofDigitChars 10 cs acc) := by
  induction cs generalizing acc with
  | nil => rfl
  | cons c rest ih =>
    have hc : c.isDigit = true := hcs c (by simp)
    rw [foldDigits, if_pos hc, ih _ fun d hd => hcs d (List.mem_cons_of_mem _ hd),
      Nat.ofDigitChars_cons, Nat.mul_comm acc 10]

theorem allDigits_of_foldDigits {acc n : Nat} (h : foldDigits acc cs = some n) : AllDigits cs := by
  induction cs generalizing acc with
  | nil => exact fun _ hc => by cases hc
  | cons c rest ih =>
    rw [foldDigits] at h
    split at h
    · rename_i hdigit
      intro d hd
      rcases List.mem_cons.1 hd with rfl | hmem
      · exact hdigit
      · exact ih h d hmem
    · contradiction

theorem natural?_eq_some {n : Nat} :
    natural? cs = some n ↔ cs ≠ [] ∧ AllDigits cs ∧ n = Nat.ofDigitChars 10 cs 0 := by
  cases cs with
  | nil => simp [natural?]
  | cons c rest =>
    constructor
    · intro h
      have hdigits := allDigits_of_foldDigits h
      have hvalue := (foldDigits_eq 0 hdigits).symm.trans h
      exact ⟨List.cons_ne_nil c rest, hdigits, (Option.some.inj hvalue).symm⟩
    · rintro ⟨-, hdigits, rfl⟩
      exact foldDigits_eq 0 hdigits

theorem foldDigits_digits (n : Nat) : foldDigits 0 (digits n) = some n := by
  rw [foldDigits_eq 0 (allDigits_digits n), digits,
    Nat.ofDigitChars_toDigits (by decide) (by decide)]

theorem foldDigits_zeros (acc n : Nat) :
    foldDigits acc (List.replicate n '0') = some (acc * tenTo n) := by
  induction n generalizing acc with
  | zero => exact congrArg some (Nat.mul_one acc).symm
  | succ n ih =>
    have hzero : foldDigits acc (List.replicate (n + 1) '0') =
        foldDigits (acc * 10) (List.replicate n '0') := rfl
    have hten : tenTo (n + 1) = 10 * tenTo n := Nat.pow_succ'
    rw [hzero, ih, Nat.mul_assoc, hten]

theorem foldDigits_leading (k n : Nat) :
    foldDigits 0 (List.replicate k '0' ++ digits n) = some n := by
  rw [foldDigits_append, foldDigits_zeros, Nat.zero_mul]
  exact foldDigits_digits n

theorem foldDigits_trailing (n k : Nat) :
    foldDigits 0 (digits n ++ List.replicate k '0') = some (n * tenTo k) := by
  rw [foldDigits_append, foldDigits_digits]
  exact foldDigits_zeros n k

theorem natural?_digits (n : Nat) : natural? (digits n) = some n := by
  rw [← foldDigits_digits n]
  cases h : digits n with
  | nil => exact absurd h (digits_ne_nil n)
  | cons c rest => rfl

/-- A digit is not a sign. -/
theorem splitSign_of_isDigit {c : Char} (hc : c.isDigit = true) (rest : List Char) :
    splitSign (c :: rest) = (false, c :: rest) := by
  unfold splitSign
  split
  · rename_i heq
    cases heq
    contradiction
  · rename_i heq
    cases heq
    contradiction
  · rfl

theorem splitSign_of_digits (hcs : AllDigits cs) : splitSign cs = (false, cs) := by
  cases cs with
  | nil => rfl
  | cons c rest => exact splitSign_of_isDigit (hcs c (by simp)) rest

theorem integer?_signed (n : Int) : integer? (signed n) = some n := by
  cases n with
  | ofNat n =>
    simp only [integer?, signed, splitSign_of_digits (allDigits_digits n), natural?_digits]
    rfl
  | negSucc n =>
    simp only [integer?, signed, splitSign, natural?_digits]
    rfl

theorem signedIn?_signed {bits : Nat} {n : Int} (h : isSigned bits n = true) :
    signedIn? bits (signed n) = some n := by
  rw [signedIn?, integer?_signed, Option.filter_some, if_pos h]

/-- A signed integer starts with a digit or a minus sign and goes on with digits. -/
theorem signed_cases (n : Int) :
    ∃ cs, AllDigits cs ∧ cs ≠ [] ∧ (signed n = cs ∨ signed n = '-' :: cs) := by
  cases n with
  | ofNat n => exact ⟨digits n, allDigits_digits n, digits_ne_nil n, .inl rfl⟩
  | negSucc n => exact ⟨digits (n + 1), allDigits_digits _, digits_ne_nil _, .inr rfl⟩

end BlockConvert.Decimal
