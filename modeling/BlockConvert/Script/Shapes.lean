import BlockConvert.Decimal.Binary
import BlockConvert.Script.Child

set_option autoImplicit false

/-!
# Scripts for shapes and places

Banner colours, skull rotations, moving blocks and paired chests.
-/

namespace BlockConvert.Script

open Decimal (Format)

/-- Banner patterns count their colours the other way round. -/
def bannerToUniversal : String × Script :=
  define "banner_pattern_2u" fun args => do
    let t ← args.tag 0
    let patterns := ((t.child? "Patterns").bind Tag.items?).getD []
    return .edits (patterns.zipIdx.filterMap fun (pattern, i) =>
      (intAt? pattern "Color").map fun colour =>
        .new (shared ++ [.atKey "Patterns" .list, .atIndex i .compound]) (.key "Color")
          (.int (15 - colour)))

/-- The sixteenth of a turn in which an angle in degrees lies. -/
def sixteenth (bits : UInt32) : Int :=
  (Format.double.divide (Format.single.decode bits.toNat) 45 2).floor % 16

def skullToUniversal : String × Script :=
  define "bedrock_skull_rotation_2u" fun args => do
    let t ← args.tag 0
    let rotation := match t.child? "Rotation" with
      | some (.float bits) => sixteenth bits
      | _ => 0
    return .properties (Dict.ofList [("rotation", .string (toString rotation))])

def coordsAt? (t : Tag) (x y z : String) : Option Coords := do
  let a ← intAt? t x
  let b ← intAt? t y
  let c ← intAt? t z
  return ⟨a, b, c⟩

def pistonToUniversal : String × Script :=
  define "bedrock_moving_block_pos_2u" fun args => do
    let t ← args.tag 0
    let l ← args.location 1
    return .edits (match coordsAt? t "pistonPosX" "pistonPosY" "pistonPosZ" with
      | some p => [.new shared (.key "pistonPosdX") (.int (p.x - l.x)),
          .new shared (.key "pistonPosdY") (.int (p.y - l.y)),
          .new shared (.key "pistonPosdZ") (.int (p.z - l.z))]
      | none => [])

def pistonFromUniversal : String × Script :=
  define "bedrock_moving_block_pos_fu" fun args => do
    let t ← args.tag 0
    let l ← args.location 1
    return .edits (match (t.child? sharedKey).bind
        (coordsAt? · "pistonPosdX" "pistonPosdY" "pistonPosdZ") with
      | some d => [.new [] (.key "pistonPosX") (.int (d.x + l.x)),
          .new [] (.key "pistonPosY") (.int (d.y + l.y)),
          .new [] (.key "pistonPosZ") (.int (d.z + l.z))]
      | none => [])

/-- The place beside a chest that faces a given way, to its left. -/
def besideChest? (facing : String) (l : Coords) : Option (Int32 × Int32) :=
  match facing with
  | "north" => some (l.x - 1, l.z)
  | "south" => some (l.x + 1, l.z)
  | "west" => some (l.x, l.z + 1)
  | "east" => some (l.x, l.z - 1)
  | _ => none

def chestFromUniversal : String × Script :=
  define "bedrock_chest_fu" fun args => do
    let p ← args.properties 0
    let l ← args.location 1
    return .edits (match ((p.get? "facing").bind Tag.text?).bind (besideChest? · l) with
      | some (x, z) => [.new [] (.key "pairlead") (.byte 1), .new [] (.key "pairx") (.int x),
          .new [] (.key "pairz") (.int z)]
      | none => [])

structure ChestPair where
  facing : Tag
  dx : Int32
  dz : Int32

def chestPair (args : ScriptArgs) (facingKey : String) : Except ScriptError (Option ChestPair) := do
  let t ← args.tag 0
  let p ← args.properties 1
  let l ← args.location 2
  return do
    let _ ← (t.child? "pairlead").filter fun lead => decide (lead = .byte 1)
    let x ← intAt? t "pairx"
    let z ← intAt? t "pairz"
    let facing ← p.get? facingKey
    return ⟨facing, x - l.x, z - l.z⟩

def propertyIf (holds : Bool) (key value : String) : ScriptValue :=
  .properties (if holds then Dict.ofList [(key, .string value)] else ∅)

def isLeft (facing : Int) (dx dz : Int32) : Bool :=
  [(2, -1, 0), (3, 1, 0), (4, 0, 1), (5, 0, -1)].contains (facing, dx.toInt, dz.toInt)

def isRight (facing : Int) (dx dz : Int32) : Bool :=
  [(2, 1, 0), (3, -1, 0), (4, 0, -1), (5, 0, 1)].contains (facing, dx.toInt, dz.toInt)

def facingNumber? : String → Option Int
  | "north" => some 2
  | "south" => some 3
  | "west" => some 4
  | "east" => some 5
  | _ => none

def chestConnectionLeft : String × Script :=
  define "bedrock_chest_connection_other_left" fun args => do
    let pair ← chestPair args "facing_direction"
    let holds := pair.any fun p => p.facing.integer?.any fun n => isLeft n.toInt p.dx p.dz
    return propertyIf holds "type" "left"

def chestConnectionRight : String × Script :=
  define "bedrock_chest_connection_other_right" fun args => do
    let pair ← chestPair args "facing_direction"
    let holds := pair.any fun p => p.facing.integer?.any fun n => isRight n.toInt p.dx p.dz
    return propertyIf holds "connection" "right"

def chestConnectionRightNamed : String × Script :=
  define "bedrock_chest_connection_other_right_120" fun args => do
    let pair ← chestPair args "minecraft:cardinal_direction"
    let holds := pair.any fun p =>
      (p.facing.text?.bind facingNumber?).any fun n => isRight n p.dx p.dz
    return propertyIf holds "connection" "right"

end BlockConvert.Script
