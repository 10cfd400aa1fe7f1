import BlockConvert.Tag
import BlockConvert.Decimal.Binary

set_option autoImplicit false

/-!
# Conversion between numeric kinds

Any tag casts to its own kind. A numeric tag casts to every numeric kind: a floating point value
loses its fraction and is held in the range of 64-bit integers first, and an integer that is too
wide loses its high bits.
-/

namespace BlockConvert.Tag

open Decimal (Format Meaning)

def meaning? : Tag → Option Meaning
  | float b => some (Format.single.decode b.toNat)
  | double b => some (Format.double.decode b.toNat)
  | t => t.integer?.map fun n => Meaning.finite (decide (n.toInt < 0)) n.toInt.natAbs 0

def doubleBits? : Tag → Option UInt64
  | double b => some b
  | t => t.meaning?.map fun m => UInt64.ofNat (Format.double.ofMeaning m)

def cast? (t : Tag) (k : Kind) : Option Tag :=
  if t.kind = k then some t
  else do
    let meaning ← t.meaning?
    let bits ← t.doubleBits?
    let whole := meaning.truncate
    match k with
    | .byte => some (byte (Int8.ofInt whole))
    | .short => some (short (Int16.ofInt whole))
    | .int => some (int (Int32.ofInt whole))
    | .long => some (long (Int64.ofInt whole))
    | .float =>
      some (float (UInt32.ofNat (Format.single.ofMeaning (Format.double.decode bits.toNat))))
    | .double => some (double bits)
    | _ => none

theorem cast?_self (t : Tag) : t.cast? t.kind = some t := by simp [cast?]

end BlockConvert.Tag
