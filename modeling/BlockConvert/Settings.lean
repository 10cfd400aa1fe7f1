import BlockConvert.Text.Blank
import BlockConvert.Text.Split

set_option autoImplicit false

/-!
# Settings

The root of the rule files, and whether output trees start from templates, read from two optional
texts. Two paths are the same if they have the same parts: repeated separators and a dot after the
first part do not count.
-/

namespace BlockConvert

structure Settings where
  dataDir : String
  prepopulate : Bool
deriving DecidableEq

namespace Settings

def default : Settings := ⟨"./data", true⟩

def isOff (text : String) : Bool :=
  ["0", "false"].contains (String.ofList ((Text.trim text.toList).map Char.toLower))

def read (data prepopulate : Option String) : Settings where
  dataDir := (data.filter fun d => !d.isEmpty).getD default.dataDir
  prepopulate := (prepopulate.map fun p => !isOff p).getD default.prepopulate

def summary (s : Settings) : String :=
  "data=" ++ s.dataDir ++ " prepopulate=" ++ toString s.prepopulate

/-- The parts of a path, with an empty one in front if it starts at the root. -/
def pathParts (path : String) : List (List Char) :=
  match Text.splitAll '/' path.toList with
  | [] => []
  | first :: rest => first :: rest.filter fun p => !(p.isEmpty || p == ['.'])

def isDefault (s : Settings) : Bool :=
  pathParts s.dataDir == pathParts default.dataDir && s.prepopulate == default.prepopulate

end Settings

end BlockConvert
