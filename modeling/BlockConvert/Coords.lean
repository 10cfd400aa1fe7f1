set_option autoImplicit false

/-!
# Block coordinates

Whole coordinates of 32 bits, and their sums.
-/

namespace BlockConvert

structure Coords where
  x : Int32
  y : Int32
  z : Int32
deriving DecidableEq

namespace Coords

def origin : Coords := ⟨0, 0, 0⟩

def add (a b : Coords) : Coords := ⟨a.x + b.x, a.y + b.y, a.z + b.z⟩

instance : Add Coords := ⟨add⟩

theorem add_origin (a : Coords) : a + origin = a := by
  obtain ⟨x, y, z⟩ := a
  show Coords.mk (x + 0) (y + 0) (z + 0) = _
  simp only [Int32.add_zero]

theorem add_assoc (a b c : Coords) : a + b + c = a + (b + c) := by
  show Coords.mk (a.x + b.x + c.x) (a.y + b.y + c.y) (a.z + b.z + c.z) = _
  simp only [Int32.add_assoc]
  rfl

def describe (c : Coords) : String :=
  "(" ++ toString c.x.toInt ++ ", " ++ toString c.y.toInt ++ ", " ++ toString c.z.toInt ++ ")"

end Coords

end BlockConvert
