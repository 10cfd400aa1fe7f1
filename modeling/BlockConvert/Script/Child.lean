import BlockConvert.Script

set_option autoImplicit false

/-!
# Children that scripts read

The text or the number under a key, and the compound in which converted trees keep what has no
common name.
-/

namespace BlockConvert.Script

def textAt (t : Tag) (key : String) : String := ((t.child? key).bind Tag.text?).getD ""

def intAt? (t : Tag) (key : String) : Option Int32 :=
  match t.child? key with
  | some (.int n) => some n
  | _ => none

/-- The key of the compound for what has no common name. -/
def sharedKey : String := "utags"

def shared : Path := [.atKey sharedKey .compound]

end BlockConvert.Script
