import BlockConvert.Decimal.Binary

set_option autoImplicit false

/-!
# Shortest decimals

A positive value of a binary format owns an interval of reals that round to it, with its ends if
its mantissa is even. `shortest` gives the decimal with the fewest digits in that interval: on the
grid of 1, 2, … digits it tries the two neighbours of the value, takes the nearer if both lie in the
interval, and goes up on a tie.
-/

namespace BlockConvert.Decimal

/-- The positive decimal `digits * 10 ^ exponent`. -/
structure Scientific where
  digits : Nat
  exponent : Int
deriving DecidableEq

/-- A value and the ends of its interval over one denominator. -/
structure Interval where
  low : Nat
  value : Nat
  high : Nat
  den : Nat
  closed : Bool

namespace Interval

/-- The interval of `mantissa * 2 ^ exponent`. Below a power of two the neighbour is nearer. -/
def ofFinite (f : Format) (mantissa : Nat) (exponent : Int) : Interval :=
  let below := if mantissa = twoTo f.fractionBits ∧ f.leastExponent < exponent then 1 else 2
  let up := twoTo (exponent - 2).toNat
  { low := (4 * mantissa - below) * up
    value := 4 * mantissa * up
    high := (4 * mantissa + 2) * up
    den := twoTo (2 - exponent).toNat
    closed := mantissa % 2 == 0 }

def inUnits (i : Interval) (exponent : Int) : Interval :=
  let up := tenTo (-exponent).toNat
  { i with
    low := i.low * up, value := i.value * up, high := i.high * up
    den := i.den * tenTo exponent.toNat }

def contains (i : Interval) (n : Nat) : Bool :=
  if i.closed then decide (i.low ≤ n * i.den ∧ n * i.den ≤ i.high)
  else decide (i.low < n * i.den ∧ n * i.den < i.high)

def neighbour? (i : Interval) : Option Nat :=
  let n := i.value / i.den
  match i.contains n, i.contains (n + 1) with
  | true, true => some (if (2 * n + 1) * i.den ≤ 2 * i.value then n + 1 else n)
  | true, false => some n
  | false, true => some (n + 1)
  | false, false => none

/-- The number of digits before the point; zero or negative if the first digits after it are
zeros. -/
def magnitude (i : Interval) : Int :=
  if i.den ≤ i.value then ((Nat.toDigits 10 (i.value / i.den)).length : Int)
  else
    let zeros := (Nat.toDigits 10 (i.den / i.value)).length
    if i.value * tenTo (zeros - 1) = i.den then 2 - (zeros : Int) else 1 - (zeros : Int)

/-- The first grid, from `count` digits on, that has a neighbour in the interval. -/
def search (i : Interval) (magnitude : Int) : (tries : Nat) → (count : Nat) → Scientific
  | 0, count => ⟨(i.inUnits (magnitude - count)).value / (i.inUnits (magnitude - count)).den,
      magnitude - count⟩
  | tries + 1, count =>
    match (i.inUnits (magnitude - count)).neighbour? with
    | some n => ⟨n, magnitude - count⟩
    | none => search i magnitude tries (count + 1)

end Interval

namespace Scientific

def strip : (bound : Nat) → Scientific → Scientific
  | 0, s => s
  | bound + 1, s =>
    if s.digits ≠ 0 ∧ s.digits % 10 = 0 then strip bound ⟨s.digits / 10, s.exponent + 1⟩ else s

end Scientific

/-- The shortest decimal that reads back as the positive value `mantissa * 2 ^ exponent`. -/
def shortest (f : Format) (mantissa : Nat) (exponent : Int) : Scientific :=
  let i := Interval.ofFinite f mantissa exponent
  (i.search i.magnitude 17 1).strip 20

end BlockConvert.Decimal
