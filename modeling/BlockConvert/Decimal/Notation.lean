import BlockConvert.Decimal.Natural
import BlockConvert.Decimal.Shortest

set_option autoImplicit false

/-!
# Notations for floating point values

A notation decides how the shortest decimal of a value is laid out. `tagged` always shows a point or
an exponent and turns to an exponent for very large and very small values; `plain` never shows an
exponent and drops a zero fraction. `fixed` writes a given number of places of the exact value.
-/

namespace BlockConvert.Decimal

/-- Where positional layout ends, and whether a whole number keeps a zero fraction. -/
structure Notation where
  /-- The least and greatest number of digits before the point that are written positionally. -/
  positional : Option (Int × Int)
  keepsFraction : Bool

namespace Notation

/-- Positional from one ten-thousandth up to ten to the sixteenth, with a fraction always. -/
def tagged : Notation := ⟨some (-3, 16), true⟩

def plain : Notation := ⟨none, false⟩

variable (n : Notation)

def isPositional (point : Int) : Bool :=
  match n.positional with
  | none => true
  | some (low, high) => decide (low ≤ point ∧ point ≤ high)

def positionalText (digits : List Char) (point : Int) : List Char :=
  if point ≤ 0 then '0' :: '.' :: (List.replicate (-point).toNat '0' ++ digits)
  else if digits.length ≤ point.toNat then
    digits ++ List.replicate (point.toNat - digits.length) '0' ++
      (if n.keepsFraction then ['.', '0'] else [])
  else digits.take point.toNat ++ '.' :: digits.drop point.toNat

def exponentText (digits : List Char) (point : Int) : List Char :=
  let rest := digits.drop 1
  digits.take 1 ++ (if rest.isEmpty then [] else '.' :: rest) ++ 'e' :: signed (point - 1)

def magnitudeText (s : Scientific) : List Char :=
  let ds := digits s.digits
  let point : Int := ds.length + s.exponent
  if n.isPositional point then n.positionalText ds point else exponentText ds point

def text (f : Format) : Meaning → List Char
  | .nan _ => "NaN".toList
  | .infinite negative => (if negative then ['-'] else []) ++ "inf".toList
  | .finite negative m e =>
    (if negative then ['-'] else []) ++
      (if m = 0 then '0' :: (if n.keepsFraction then ['.', '0'] else [])
       else n.magnitudeText (shortest f m e))

end Notation

/-- The value with a fixed number of places, a tie to the even neighbour. -/
def fixed (places : Nat) : Meaning → List Char
  | .nan _ => "NaN".toList
  | .infinite negative => (if negative then ['-'] else []) ++ "inf".toList
  | .finite negative m e =>
    let (num, den) := Meaning.quotient m e
    let scaled := Format.roundQuotient (num * tenTo places) den
    let fraction := digits (scaled % tenTo places)
    (if negative then ['-'] else []) ++ digits (scaled / tenTo places) ++
      (if places = 0 then []
       else '.' :: (List.replicate (places - fraction.length) '0' ++ fraction))

end BlockConvert.Decimal
