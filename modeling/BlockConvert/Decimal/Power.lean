set_option autoImplicit false

/-!
# Powers and words

Powers of two and of ten, and the integers that a word of some bits holds.
-/

namespace BlockConvert.Decimal

def twoTo (n : Nat) : Nat := Nat.pow 2 n

def tenTo (n : Nat) : Nat := Nat.pow 10 n

theorem twoTo_pos (n : Nat) : 0 < twoTo n := Nat.pow_pos (by decide)

theorem tenTo_pos (n : Nat) : 0 < tenTo n := Nat.pow_pos (by decide)

def leastSigned (bits : Nat) : Int := -(twoTo (bits - 1) : Int)

def greatestSigned (bits : Nat) : Int := (twoTo (bits - 1) : Int) - 1

def isSigned (bits : Nat) (n : Int) : Bool :=
  decide (leastSigned bits ≤ n ∧ n ≤ greatestSigned bits)

def isUnsigned (bits : Nat) (n : Int) : Bool := decide (0 ≤ n ∧ n < (twoTo bits : Int))

end BlockConvert.Decimal
