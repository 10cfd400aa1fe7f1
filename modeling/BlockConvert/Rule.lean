import BlockConvert.Coords
import BlockConvert.Tag.Path

set_option autoImplicit false

/-!
# Mapping rules

A rule list says how a record is converted: which record comes out, which properties it has and
which tags are painted into its tree. Rules nest in cases, in parts of a structure of several
blocks, and in the nodes of a walk through the input tree. Tables in rules are in key order, but the
cases of `mapProperties`, which are tried in the order of the file.
-/

namespace BlockConvert

/-- A tag to paint. Without a path it goes to the position of the walk, or to the root. -/
structure NewTag where
  rootName : String
  rootKind : Kind
  path : Option Path
  key : PathKey
  value : Tag
deriving DecidableEq

/-- Where the tag at the position of the walk is painted, and as which kind; what is absent is taken
from the position. -/
structure Carry where
  rootName : String
  rootKind : Kind
  path : Option Path
  key : Option PathKey
  kind : Option Kind
deriving DecidableEq

namespace Carry

def same : Carry := ⟨"", .compound, none, none, none⟩

end Carry

inductive ScriptInput where
  | namespace
  | baseName
  | properties
  | tree
  | location
deriving DecidableEq

inductive ScriptOutput where
  | outputName
  | outputType
  | newProperties
  | newTags
deriving DecidableEq

namespace ScriptInput

def ofName? : String → Option ScriptInput
  | "namespace" | "namspace" => some .namespace
  | "base_name" => some .baseName
  | "properties" => some .properties
  | "nbt" => some .tree
  | "location" => some .location
  | _ => none

def name : ScriptInput → String
  | .namespace => "namespace"
  | .baseName => "base_name"
  | .properties => "properties"
  | .tree => "nbt"
  | .location => "location"

end ScriptInput

namespace ScriptOutput

def ofName? : String → Option ScriptOutput
  | "output_name" => some .outputName
  | "output_type" => some .outputType
  | "new_properties" => some .newProperties
  | "new_nbt" => some .newTags
  | _ => none

def name : ScriptOutput → String
  | .outputName => "output_name"
  | .outputType => "output_type"
  | .newProperties => "new_properties"
  | .newTags => "new_nbt"

def describe : ScriptOutput → String
  | .outputName => "OutputName"
  | .outputType => "OutputType"
  | .newProperties => "NewProperties"
  | .newTags => "NewNbt"

end ScriptOutput

structure ScriptCall where
  script : String
  inputs : List ScriptInput
  outputs : List ScriptOutput
deriving DecidableEq

mutual

inductive Rule where
  | newBlock (id : String)
  | newEntity (id : String)
  | newProperties (properties : Dict Tag)
  /-- For each property the values that are carried. -/
  | carryProperties (allowed : Dict (List Tag))
  | mapProperties (cases : List (String × List (Tag × List Rule)))
  | mapBlockName (cases : List (String × List Rule))
  | multiblock (parts : List Part)
  /-- Walks from a path, or without one from the current position. -/
  | walk (path : Option Path) (node : WalkNode)
  | newTags (entries : List NewTag)
  | carryTag (carry : Carry)
  | mapTag (cases : Option (List (Tag × List Rule))) (otherwise : List Rule)
  | script (call : ScriptCall)

inductive Part where
  | mk (offset : Coords) (rules : List Rule)

/-- One level of a walk: the expected kind, rules for the tag itself, nodes for its children, rules
for children without a node, and rules for a tag of another kind. -/
inductive WalkNode where
  | mk (kind : Option Kind) (rules : List Rule) (keys indices : List (String × WalkNode))
      (childDefault selfDefault : Option (List Rule))

end

namespace Rule

def name : Rule → String
  | newBlock _ => "new_block"
  | newEntity _ => "new_entity"
  | newProperties _ => "new_properties"
  | carryProperties _ => "carry_properties"
  | mapProperties _ => "map_properties"
  | mapBlockName _ => "map_block_name"
  | multiblock _ => "multiblock"
  | walk _ _ => "walk_input_nbt"
  | newTags _ => "new_nbt"
  | carryTag _ => "carry_nbt"
  | mapTag _ _ => "map_nbt"
  | script _ => "code"

end Rule

end BlockConvert
