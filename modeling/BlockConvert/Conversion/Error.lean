import BlockConvert.Database
import BlockConvert.Script
import BlockConvert.World

set_option autoImplicit false

/-!
# Why a conversion fails

A rule may not fit the record it is applied to, a script or a look-up may fail, and what the rules
decide may name no record.
-/

namespace BlockConvert

inductive ConversionError where
  | notABlock (rule : String)
  | noWalkPosition (rule : String)
  | rootCarry
  | cast (source target : Kind)
  | entityExtraInput
  | outputType (name : String)
  | noOutput
  | badIdentifier (text : String)
  | script (cause : ScriptError)
  | lookup (cause : LookupError)
  | notFound (cause : NotFound)
deriving DecidableEq

namespace ConversionError

def message : ConversionError → String
  | notABlock rule => rule ++ " needs a block input"
  | noWalkPosition rule => rule ++ " used outside walk_input_nbt"
  | rootCarry => "carry_nbt at the root of the tree has no key to carry"
  | cast source target => "cannot cast a " ++ source.name ++ " tag to " ++ target.name
  | entityExtraInput => "an entity cannot be translated with an extra block entity"
  | outputType name => "code function returned unknown output type " ++ Text.quoted name
  | noOutput => "the rules produced no output"
  | badIdentifier text =>
    "output identifier " ++ Text.quoted text ++ " is not namespace:base_name"
  | script cause => cause.message
  | lookup cause => cause.message
  | notFound cause => cause.message

end ConversionError

end BlockConvert
