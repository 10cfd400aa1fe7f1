import BlockConvert.Decimal.Power

set_option autoImplicit false

/-!
# Binary floating point

A format has a number of fraction bits and of exponent bits; a value of it is held as its bit
pattern. `decode` gives the exact meaning of a pattern, and `round` the pattern of the value nearest
to a quotient of natural numbers, ties to the even neighbour.
-/

namespace BlockConvert.Decimal

structure Format where
  fractionBits : Nat
  exponentBits : Nat
deriving DecidableEq

namespace Format

def single : Format := ⟨23, 8⟩

def double : Format := ⟨52, 11⟩

variable (f : Format)

/-- The exponent of the unit in the last place of the smallest values. -/
def leastExponent : Int := 2 - twoTo (f.exponentBits - 1) - f.fractionBits

/-- The exponent field that marks infinities and values that are not numbers. -/
def topExponent : Nat := twoTo f.exponentBits - 1

def infinityBits : Nat := f.topExponent * twoTo f.fractionBits

def signBit : Nat := twoTo (f.fractionBits + f.exponentBits)

def nanBits : Nat := f.infinityBits + twoTo (f.fractionBits - 1)

end Format

/-- What a bit pattern means; a finite one is `mantissa * 2 ^ exponent`. -/
inductive Meaning where
  | nan (negative : Bool)
  | infinite (negative : Bool)
  | finite (negative : Bool) (mantissa : Nat) (exponent : Int)
deriving DecidableEq

namespace Format

variable (f : Format)

def decode (bits : Nat) : Meaning :=
  let fraction := bits % twoTo f.fractionBits
  let field := bits / twoTo f.fractionBits % twoTo f.exponentBits
  let negative := bits / f.signBit % 2 == 1
  if field = f.topExponent then
    if fraction = 0 then .infinite negative else .nan negative
  else if field = 0 then .finite negative fraction f.leastExponent
  else .finite negative (twoTo f.fractionBits + fraction) (f.leastExponent + field - 1)

/-- The quotient rounded to the nearest natural number, a tie to the even one. -/
def roundQuotient (num den : Nat) : Nat :=
  let q := num / den
  let r := num % den
  if 2 * r < den then q
  else if den < 2 * r then q + 1
  else if q % 2 = 0 then q else q + 1

def scale (num den : Nat) (exponent : Int) : Nat × Nat :=
  if 0 ≤ exponent then (num, den * twoTo exponent.toNat) else (num * twoTo (-exponent).toNat, den)

def unitExponent (num den : Nat) : Int :=
  let guess : Int := (num.log2 : Int) - den.log2 - f.fractionBits
  let (n, d) := scale num den guess
  max f.leastExponent (if n / d < twoTo f.fractionBits then guess - 1 else guess)

def roundMagnitude (num den : Nat) : Nat :=
  if num = 0 then 0
  else
    let exponent := f.unitExponent num den
    let (n, d) := scale num den exponent
    let bits := (exponent - f.leastExponent).toNat * twoTo f.fractionBits + roundQuotient n d
    min bits f.infinityBits

def round (negative : Bool) (num den : Nat) : Nat :=
  (if negative then f.signBit else 0) + f.roundMagnitude num den

def ofInt (n : Int) : Nat := f.round (decide (n < 0)) n.natAbs 1

def ofMeaning : Meaning → Nat
  | .nan negative => (if negative then f.signBit else 0) + f.nanBits
  | .infinite negative => (if negative then f.signBit else 0) + f.infinityBits
  | .finite negative m e =>
    if 0 ≤ e then f.round negative (m * twoTo e.toNat) 1 else f.round negative m (twoTo (-e).toNat)

end Format

namespace Meaning

def isFinite : Meaning → Bool
  | .finite _ _ _ => true
  | _ => false

def quotient (mantissa : Nat) (exponent : Int) : Nat × Nat :=
  if 0 ≤ exponent then (mantissa * twoTo exponent.toNat, 1) else (mantissa, twoTo (-exponent).toNat)

/-- The whole part toward zero, held in the range of 64-bit integers; zero for a value that is not
a number. -/
def truncate : Meaning → Int
  | .nan _ => 0
  | .infinite negative => if negative then leastSigned 64 else greatestSigned 64
  | .finite negative m e =>
    let (n, d) := quotient m e
    let whole : Int := (n / d : Nat)
    if negative then max (leastSigned 64) (-whole) else min (greatestSigned 64) whole

/-- The greatest integer not above the value, held in the range of 64-bit integers; zero for a value
that is not a number. -/
def floor : Meaning → Int
  | .nan _ => 0
  | .infinite negative => if negative then leastSigned 64 else greatestSigned 64
  | .finite negative m e =>
    let (n, d) := quotient m e
    if negative then max (leastSigned 64) (-((n + d - 1) / d : Nat))
    else min (greatestSigned 64) (n / d : Nat)

end Meaning

namespace Format

variable (f : Format)

def divide (value : Meaning) (num den : Nat) : Meaning :=
  match value with
  | .finite negative m e =>
    let (n, d) := Meaning.quotient m e
    f.decode (f.round negative (n * den) (d * num))
  | other => other

def nearest (n : Nat) : Meaning := f.decode (f.ofInt n)

def ratio (value : Meaning) : Meaning → Meaning
  | .finite _ m e =>
    let (num, den) := Meaning.quotient m e
    f.divide value num den
  | other => other

def product (value : Meaning) : Meaning → Meaning
  | .finite _ m e =>
    let (num, den) := Meaning.quotient m e
    f.divide value den num
  | other => other

end Format

end BlockConvert.Decimal
