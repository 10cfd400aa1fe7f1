import BlockConvert.Decimal.Power

set_option autoImplicit false

/-!
# Decimal integers

Digits of natural numbers and of signed integers, and their reading. A read integer may carry either
sign and leading zeros; a written one carries a minus sign only.
-/

namespace BlockConvert.Decimal

def digits (n : Nat) : List Char := Nat.toDigits 10 n

/-- The value of a text of digits, continued from `acc`; a character that is no digit refuses it. -/
def foldDigits (acc : Nat) : List Char → Option Nat
  | [] => some acc
  | c :: rest => if c.isDigit then foldDigits (acc * 10 + (c.toNat - '0'.toNat)) rest else none

def natural? : List Char → Option Nat
  | [] => none
  | cs => foldDigits 0 cs

def splitSign : List Char → Bool × List Char
  | '-' :: rest => (true, rest)
  | '+' :: rest => (false, rest)
  | cs => (false, cs)

def integer? (cs : List Char) : Option Int :=
  let (negative, body) := splitSign cs
  (natural? body).map fun n => if negative then -(n : Int) else n

def signedIn? (bits : Nat) (cs : List Char) : Option Int := (integer? cs).filter (isSigned bits)

def signed : Int → List Char
  | .ofNat n => digits n
  | .negSucc n => '-' :: digits (n + 1)

end BlockConvert.Decimal
