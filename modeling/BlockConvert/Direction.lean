set_option autoImplicit false

/-!
# Directions

Records of every version are converted to one universal form and back from it.
-/

namespace BlockConvert

inductive Direction where
  | toUniversal
  | fromUniversal
deriving DecidableEq

namespace Direction

def describe : Direction → String
  | toUniversal => "to universal"
  | fromUniversal => "from universal"

end Direction

inductive RecordKind where
  | block
  | entity
deriving DecidableEq

namespace RecordKind

def name : RecordKind → String
  | block => "block"
  | entity => "entity"

def ofName? : String → Option RecordKind
  | "block" => some .block
  | "entity" => some .entity
  | _ => none

end RecordKind

end BlockConvert
