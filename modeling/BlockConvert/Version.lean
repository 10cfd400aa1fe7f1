import BlockConvert.Database

set_option autoImplicit false

/-!
# Game versions

The number of a version, how it stores blocks, and everything its files declare.
-/

namespace BlockConvert

structure VersionNumber where
  major : Nat
  minor : Nat
  patch : Nat
deriving DecidableEq

namespace VersionNumber

def parts (v : VersionNumber) : List Nat := [v.major, v.minor, v.patch]

theorem parts_injective {a b : VersionNumber} (h : a.parts = b.parts) : a = b := by
  cases a
  cases b
  simpa [parts] using h

instance : KeyOrder VersionNumber := KeyOrder.lift parts parts_injective

def majorMinor (v : VersionNumber) : Nat × Nat := (v.major, v.minor)

def text (v : VersionNumber) : String :=
  toString v.major ++ "." ++ toString v.minor ++ "." ++ toString v.patch

end VersionNumber

inductive BlockFormat where
  | numerical
  | pseudoNumerical
  | blockstate
  | nbtBlockstate
deriving DecidableEq

namespace BlockFormat

def ofName? : String → Option BlockFormat
  | "numerical" => some .numerical
  | "pseudo-numerical" => some .pseudoNumerical
  | "blockstate" => some .blockstate
  | "nbt-blockstate" => some .nbtBlockstate
  | _ => none

def describe : BlockFormat → String
  | numerical => "Numerical"
  | pseudoNumerical => "PseudoNumerical"
  | blockstate => "Blockstate"
  | nbtBlockstate => "NbtBlockstate"

/-- A version that stores numbers also has a layout with names on top of them. -/
def isAbstract : BlockFormat → Bool
  | numerical | pseudoNumerical => true
  | blockstate | nbtBlockstate => false

end BlockFormat

structure VersionMeta where
  platform : String
  number : VersionNumber
  dataVersion : Int
  blockFormat : BlockFormat
deriving DecidableEq

namespace VersionMeta

/-- The layout in which the version holds records, unless blockstates are asked for. -/
def formatKey (m : VersionMeta) (forceBlockstate : Bool) : FormatKey :=
  if !forceBlockstate && m.blockFormat.isAbstract then .numerical else .blockstate

def describe (m : VersionMeta) : String := m.platform ++ " " ++ m.number.text

open Json (Decoder record?)
open Json.Decoder

def versionNumber : Decoder VersionNumber := fun j =>
  (triple (unsigned 32) j).map fun (a, b, c) => ⟨a.toNat, b.toNat, c.toNat⟩

def decode : Decoder VersionMeta := fun j => do
  let f ← record? ["platform", "version", "data_version", "block_format"] j
  let platform ← f.required "platform" text
  let number ← f.required "version" versionNumber
  let dataVersion ← f.withDefault "data_version" 0 (signed 64)
  let blockFormat ← f.required "block_format" (name false BlockFormat.ofName?)
  return ⟨platform, number, dataVersion, blockFormat⟩

def parse? (text : String) : Option VersionMeta := (Json.parse? text).bind decode

end VersionMeta

structure VersionData where
  info : VersionMeta
  block : Database
  entity : Database
  blockNumbers : Dict Int32
  waterloggable : Option (List String)
  alwaysWaterlogged : Option (List String)

namespace VersionData

def ofMeta (info : VersionMeta) : VersionData :=
  ⟨info, Database.empty, Database.empty, ∅, none, none⟩

def formatKey (v : VersionData) (forceBlockstate : Bool) : FormatKey :=
  v.info.formatKey forceBlockstate

def isWaterloggable (v : VersionData) (name : String) (always : Bool) : Bool :=
  ((if always then v.alwaysWaterlogged else v.waterloggable).map (·.contains name)).getD false

end VersionData

end BlockConvert
