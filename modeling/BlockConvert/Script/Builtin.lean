import BlockConvert.Script.Shapes
import BlockConvert.Script.Signs

set_option autoImplicit false

/-!
# Built-in scripts

The scripts that rule files may call without further ado.
-/

namespace BlockConvert.Scripts

def builtin : Scripts :=
  Dict.ofList
    [Script.signToUniversal, Script.signFromUniversal, Script.signSidesToUniversal,
     Script.commandNameToUniversal, Script.commandNameFromUniversal, Script.bannerToUniversal,
     Script.skullToUniversal, Script.pistonToUniversal, Script.pistonFromUniversal,
     Script.chestFromUniversal, Script.chestConnectionLeft, Script.chestConnectionRight,
     Script.chestConnectionRightNamed]

end BlockConvert.Scripts
