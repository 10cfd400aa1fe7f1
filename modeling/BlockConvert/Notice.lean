import BlockConvert.Conversion.Error
import BlockConvert.Direction
import BlockConvert.Version

set_option autoImplicit false

/-!
# Notices

What is reported while versions are loaded and records are converted, apart from results. A notice
is a line with a level.
-/

namespace BlockConvert

inductive Level where
  | error
  | warn
  | info
  | debug
deriving DecidableEq

namespace Level

def name : Level → String
  | error => "ERROR"
  | warn => "WARN"
  | info => "INFO"
  | debug => "DEBUG"

end Level

structure Subject where
  record : Record
  direction : Direction
  version : VersionMeta

namespace Subject

def mode (s : Subject) : String :=
  match s.record with
  | .block _ => RecordKind.block.name
  | .entity _ => RecordKind.entity.name

def describe (s : Subject) : String :=
  s.record.describe ++ " " ++ s.direction.describe ++ " in " ++ s.version.describe

end Subject

inductive Notice where
  | numberBound (id : Int32) (name : String)
  | versionLoaded (info : VersionMeta) (name : String)
  | versionBroken (name : String)
  | noBlockNumbers (name : String)
  | duplicateVersion (platform : String) (number : VersionNumber)
  /-- No block was found at a place, or it could not be looked at. -/
  | partSkipped (place : Coords) (cause : Option LookupError)
  | pathMissing (path : Path)
  | pathMistyped (path : Path) (expected found : Kind)
  | unaccounted (path : Path)
  | editDropped (edit : Edit)
  | treeWithoutOutput (input : Record) (output : Block)
  | missing (subject : Subject) (cause : NotFound)
  /-- An entry is missing for a block that is still held as numbers. -/
  | missingForNumbers (subject : Subject)
  | failed (subject : Subject) (cause : ConversionError)

namespace Notice

def level : Notice → Level
  | numberBound _ _ => .debug
  | versionLoaded _ _ => .info
  | versionBroken _ => .error
  | noBlockNumbers _ => .warn
  | duplicateVersion _ _ => .warn
  | partSkipped _ _ => .debug
  | pathMissing _ => .error
  | pathMistyped _ _ _ => .error
  | unaccounted _ => .debug
  | editDropped _ => .debug
  | treeWithoutOutput _ _ => .warn
  | missing _ _ => .warn
  | missingForNumbers _ => .debug
  | failed _ _ => .error

def message : Notice → String
  | numberBound id name => "Registered numeric id " ++ toString id.toInt ++ " for " ++ name
  | versionLoaded info name => "Loaded " ++ info.describe ++ " from " ++ name
  | versionBroken name => "Failed to load version " ++ name
  | noBlockNumbers name =>
    "Version " ++ name ++ " has a numerical block format but no numerical block map"
  | duplicateVersion platform number =>
    "Duplicate " ++ platform ++ " version " ++ number.text ++ ", keeping the last one loaded"
  | partSkipped place cause =>
    "Skipping multiblock part at " ++ place.describe ++ ": " ++
      (cause.map LookupError.message).getD "no block"
  | pathMissing path => "Expected nbt data at " ++ path.describe
  | pathMistyped path expected found =>
    "Expected nbt data at " ++ path.describe ++ " to be a " ++ expected.name ++ " tag but got " ++
      found.name
  | unaccounted path => "Unaccounted data at " ++ path.describe
  | editDropped edit =>
    "Dropped nbt edit " ++ edit.key.text ++ ": no " ++ edit.value.kind.name ++ " container"
  | treeWithoutOutput input output =>
    "New nbt present but no output block entity\nin: " ++ input.describe ++ "\nout: " ++
      output.blockstate
  | missing subject cause =>
    "Could not find translation information for " ++ subject.mode ++ " " ++ subject.describe ++
      ": " ++ cause.message ++ ". If this is not a vanilla " ++ subject.mode ++
      " ignore this message"
  | missingForNumbers subject => "Probably just a quirk block " ++ subject.describe ++ "."
  | failed subject cause =>
    "Error converting " ++ subject.mode ++ " " ++ subject.describe ++ ": " ++ cause.message

def line (n : Notice) : String := n.level.name ++ " " ++ n.message

end Notice

end BlockConvert
