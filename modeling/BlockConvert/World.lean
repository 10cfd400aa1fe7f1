import BlockConvert.Record

set_option autoImplicit false

/-!
# Looking around

Access to the blocks near the one that is converted, by coordinates relative to it. Nothing at a
place is an answer; a place that cannot be looked at is an error.
-/

namespace BlockConvert

inductive LookupError where
  | chunkNotLoaded (place : Coords)
  | failed (place : Coords) (reason : String)
deriving DecidableEq

namespace LookupError

def message : LookupError → String
  | chunkNotLoaded c => "chunk containing " ++ c.describe ++ " is not loaded"
  | failed c reason => "block lookup at " ++ c.describe ++ " failed: " ++ reason

end LookupError

structure Found where
  block : Option Block
  blockEntity : Option BlockEntity
deriving DecidableEq

abbrev Lookup := Coords → Except LookupError Found

end BlockConvert
