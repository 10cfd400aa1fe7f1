import BlockConvert.Json.Decode
import BlockConvert.Rule
import BlockConvert.Snbt.Parser

set_option autoImplicit false

/-!
# Reading rules

A rule is an object with the name of the rule under `function` and its options, or an array with the
name in front. A rule is taken as a whole before its name is looked at, so all of it must be sound
and within the limit of nesting, and that limit also bounds how rules nest in rules.
-/

namespace BlockConvert

namespace Json.Decoder

def tag : Decoder Tag := fun j => do
  let s ← text j
  (Tag.ofSnbt s).toOption

def kind (whole : Bool) : Decoder Kind := name whole Kind.ofName?

def pathKey : Decoder PathKey := fun j => (natural j).map .index <|> (text j).map .key

def path (whole : Bool) : Decoder Path :=
  list fun j => (pair pathKey (kind whole) j).map fun (k, kind) => ⟨k, kind⟩

def coords : Decoder Coords := fun j => (triple int32 j).map fun (x, y, z) => ⟨x, y, z⟩

/-- A list of items, or one item alone. Both shapes are tried on one value. -/
def oneOrMany {α : Type} (item : Decoder α) : Decoder (List α) := fun j =>
  list item j <|> (item j).map ([·])

def tagSet : Decoder (List Tag) := fun j => do
  let tags ← list tag j
  return (Table.ofEntries (tags.map (·, ()))).map Prod.fst

def tagTable {α : Type} (value : Decoder α) : Decoder (List (Tag × α)) := fun j => do
  let ms ← members value j
  let entries ← ms.mapM fun (k, v) => (Tag.ofSnbt k).toOption.map (·, v)
  return Table.ofEntries entries

end Json.Decoder

namespace Rule.Loader

open Json (Decoder Fields record?)
open Json.Decoder

structure Readers where
  rules : Decoder (List Rule)
  node : Decoder WalkNode

/-- A new tag stands alone or in a list, so its kinds are read as if it had not been taken as a
whole. -/
def newTag : Decoder NewTag := fun j => do
  let f ← record? ["outer_name", "outer_type", "path", "key", "value"] j
  let rootName ← f.withDefault "outer_name" "" text
  let rootKind ← f.withDefault "outer_type" .compound (kind false)
  let path ← f.optional "path" (path false)
  let key ← f.required "key" pathKey
  let value ← f.required "value" tag
  return ⟨rootName, rootKind, path, key, value⟩

def carry : Decoder Carry := fun j => do
  let f ← record? ["outer_name", "outer_type", "path", "key", "type"] j
  let rootName ← f.withDefault "outer_name" "" text
  let rootKind ← f.withDefault "outer_type" .compound (kind true)
  let path ← f.optional "path" (path true)
  let key ← f.optional "key" pathKey
  let kind ← f.optional "type" (kind true)
  return ⟨rootName, rootKind, path, key, kind⟩

def scriptCall : Decoder ScriptCall := fun j => do
  let f ← record? ["function", "input", "output"] j
  let script ← f.required "function" text
  let inputs ← f.withDefault "input" [] (list (Decoder.name true ScriptInput.ofName?))
  let outputs ← f.withDefault "output" [] (list (Decoder.name true ScriptOutput.ofName?))
  return ⟨script, inputs, outputs⟩

def part (r : Readers) : Decoder Part := fun j => do
  let f ← record? ["coords", "functions"] j
  let offset ← f.required "coords" coords
  let rules ← f.required "functions" r.rules
  return .mk offset rules

def node (r : Readers) : Decoder WalkNode := fun j => do
  let f ← record? ["type", "functions", "keys", "index", "nested_default", "self_default"] j
  let kind ← f.optional "type" (kind true)
  let rules ← f.withDefault "functions" [] r.rules
  let keys ← f.withDefault "keys" ∅ (dict r.node)
  let indices ← f.withDefault "index" ∅ (dict r.node)
  let childDefault ← f.optional "nested_default" r.rules
  let selfDefault ← f.optional "self_default" r.rules
  return .mk kind rules keys.entries indices.entries childDefault selfDefault

def mapTag (r : Readers) : Decoder Rule := fun j => do
  let f ← record? ["cases", "default"] j
  let cases ← f.optional "cases" (tagTable r.rules)
  let otherwise ← f.withDefault "default" [] r.rules
  return .mapTag cases otherwise

def ruleNames : List String :=
  ["new_block", "new_entity", "new_properties", "carry_properties", "map_properties",
   "map_block_name", "multiblock", "walk_input_nbt", "new_nbt", "carry_nbt", "map_nbt", "code"]

/-- The name of a rule; a nested rule may give its number instead. -/
def ruleName (nested : Bool) : Decoder String
  | .text s => s
  | .number (some (.integer n)) => if nested ∧ 0 ≤ n then ruleNames[n.toNat]? else none
  | _ => none

def splitRule? : Json → Option (Json × Json)
  | .object ms =>
    match Json.membersNamed "function" ms with
    | [function] => some (function, .object (ms.filter fun m => m.1 != some "function"))
    | _ => none
  | .array (function :: rest) => some (function, .array rest)
  | _ => none

def withOptions {α : Type} (options : Decoder α) (make : α → Rule) : Decoder Rule := fun j => do
  let f ← record? ["options"] j
  (f.required "options" options).map make

def walk (r : Readers) : Decoder Rule := fun j => do
  let f ← record? ["options", "path"] j
  let node ← f.required "options" r.node
  let path ← f.optional "path" (path true)
  return .walk (path.filter fun p => !p.isEmpty) node

def carryTag : Decoder Rule := fun j => do
  let f ← record? ["options"] j
  (f.withDefault "options" Carry.same carry).map .carryTag

def named (r : Readers) : String → Decoder Rule
  | "new_block" => withOptions text .newBlock
  | "new_entity" => withOptions text .newEntity
  | "new_properties" => withOptions (dict tag) .newProperties
  | "carry_properties" => withOptions (dict tagSet) .carryProperties
  | "map_properties" => withOptions (members (tagTable r.rules)) .mapProperties
  | "map_block_name" => withOptions (dict r.rules) fun d => .mapBlockName d.entries
  | "multiblock" => withOptions (oneOrMany (part r)) .multiblock
  | "walk_input_nbt" => walk r
  | "new_nbt" => withOptions (oneOrMany newTag) .newTags
  | "carry_nbt" => carryTag
  | "map_nbt" => fun j => do
    let f ← record? ["options"] j
    f.required "options" (mapTag r)
  | "code" => withOptions scriptCall .script
  | _ => fun _ => none

def rule (r : Readers) (nested : Bool) : Decoder Rule := fun j => do
  let (function, rest) ← splitRule? j
  let name ← ruleName nested function
  named r name rest

def readers : (bound : Nat) → Readers
  | 0 => ⟨fun _ => none, fun _ => none⟩
  | bound + 1 =>
    let r := readers bound
    ⟨list (rule r true), node r⟩

def ruleList (enclosing : Nat) : Decoder (List Rule) :=
  list fun j =>
    if j.isWhole (enclosing + 1) then rule (readers Json.depthLimit) false j else none

end Rule.Loader

namespace Rule

def parse? (text : String) : Option (List Rule) := (Json.parse? text).bind (Loader.ruleList 0)

end Rule

namespace Path

def parse? (text : String) : Option Path := (Json.parse? text).bind (Json.Decoder.path false)

end Path

end BlockConvert
