import BlockConvert.Block
import BlockConvert.Coords
import BlockConvert.Decimal.Notation
import BlockConvert.Tag.Named

set_option autoImplicit false

/-!
# Records

What is converted: a block, or an entity with its tree. The tree of a block is a block entity of its
own. The location of an entity is held as bit patterns of doubles.
-/

namespace BlockConvert

/-- The location of an entity, as bit patterns of doubles. -/
structure Location where
  x : UInt64
  y : UInt64
  z : UInt64
deriving DecidableEq

namespace Location

open Decimal (Format)

def ofCoords (c : Coords) : Location :=
  let double (n : Int32) := UInt64.ofNat (Format.double.ofInt n.toInt)
  ⟨double c.x, double c.y, double c.z⟩

def coordinateText (bits : UInt64) : String :=
  String.ofList (Decimal.Notation.plain.text .double (Format.double.decode bits.toNat))

def describe (l : Location) : String :=
  "(" ++ coordinateText l.x ++ ", " ++ coordinateText l.y ++ ", " ++ coordinateText l.z ++ ")"

end Location

structure Entity where
  id : RecordId
  location : Location
  tree : NamedTag
deriving DecidableEq

namespace Entity

def describe (e : Entity) : String := e.id.text ++ " at " ++ e.location.describe

end Entity

structure BlockEntity where
  id : RecordId
  location : Coords
  tree : NamedTag
deriving DecidableEq

inductive Record where
  | block (block : Block)
  | entity (entity : Entity)
deriving DecidableEq

namespace Record

def id : Record → RecordId
  | block b => b.id
  | entity e => e.id

def describe : Record → String
  | block b => b.blockstate
  | entity e => e.describe

end Record

end BlockConvert
