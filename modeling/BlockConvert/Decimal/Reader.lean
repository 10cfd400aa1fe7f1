import BlockConvert.Decimal.Binary
import BlockConvert.Decimal.Natural

set_option autoImplicit false

/-!
# Reading floating point values

A literal is an optional sign and a word for infinity or for a value that is not a number, in any
case of letters, or digits with at most one point and an optional exponent; there is a digit before
or after the point. The value read is the one nearest to the decimal.
-/

namespace BlockConvert.Decimal

inductive Literal where
  | infinity
  | nan
  | number (digits : Nat) (exponent : Int)
deriving DecidableEq

namespace Literal

def exponent? : List Char → Option Int
  | [] => some 0
  | c :: rest => if c = 'e' ∨ c = 'E' then integer? rest else none

def number? (cs : List Char) : Option Literal :=
  let whole := cs.takeWhile Char.isDigit
  let rest := cs.dropWhile Char.isDigit
  let (fraction, tail) := match rest with
    | '.' :: after => (after.takeWhile Char.isDigit, after.dropWhile Char.isDigit)
    | other => ([], other)
  if whole.isEmpty && fraction.isEmpty then none
  else do
    let digits ← foldDigits 0 (whole ++ fraction)
    let exponent ← exponent? tail
    return .number digits (exponent - fraction.length)

def read? (cs : List Char) : Option Literal :=
  let lower := String.ofList (cs.map Char.toLower)
  if lower = "inf" ∨ lower = "infinity" then some .infinity
  else if lower = "nan" then some .nan
  else number? cs

/-- A decimal exponent beyond this leaves the range of every format here. -/
def farExponent : Int := 400

def bits (f : Format) (negative : Bool) : Literal → Nat
  | .infinity => f.ofMeaning (.infinite negative)
  | .nan => f.ofMeaning (.nan negative)
  | .number digits exponent =>
    let point : Int := (Nat.toDigits 10 digits).length + exponent
    if digits = 0 ∨ point < -farExponent then f.round negative 0 1
    else if farExponent < point then f.ofMeaning (.infinite negative)
    else f.round negative (digits * tenTo exponent.toNat) (tenTo (-exponent).toNat)

end Literal

def floating? (f : Format) (cs : List Char) : Option Nat :=
  let (negative, body) := splitSign cs
  (Literal.read? body).map (Literal.bits f negative)

end BlockConvert.Decimal
