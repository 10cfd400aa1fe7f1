import BlockConvert.Specification

set_option autoImplicit false

/-!
# Databases

The specifications and rule lists of one kind of record in one version, by format and identifier. A
look-up that fails tells which table misses the entry.
-/

namespace BlockConvert

inductive FormatKey where
  | numerical
  | blockstate
deriving DecidableEq

namespace FormatKey

def name : FormatKey → String
  | numerical => "numerical"
  | blockstate => "blockstate"

def ofName? : String → Option FormatKey
  | "numerical" => some .numerical
  | "blockstate" => some .blockstate
  | _ => none

end FormatKey

inductive TableName where
  | specification
  | toUniversal
  | fromUniversal
deriving DecidableEq

namespace TableName

def describe : TableName → String
  | specification => "specification"
  | toUniversal => "mapping to universal"
  | fromUniversal => "mapping from universal"

end TableName

structure NotFound where
  table : TableName
  format : FormatKey
  id : RecordId
deriving DecidableEq

namespace NotFound

def message (e : NotFound) : String :=
  e.table.describe ++ " for " ++ e.format.name ++ " " ++ e.id.text ++ " does not exist"

end NotFound

abbrev ByName (α : Type) := Dict (Dict α)

structure FormatTables where
  specification : ByName Specification
  toUniversal : ByName (List Rule)
  fromUniversal : ByName (List Rule)

structure Database where
  numerical : Option FormatTables
  blockstate : Option FormatTables

namespace Database

def empty : Database := ⟨none, none⟩

def tables? (d : Database) : FormatKey → Option FormatTables
  | .numerical => d.numerical
  | .blockstate => d.blockstate

def set (d : Database) : FormatKey → FormatTables → Database
  | .numerical, t => { d with numerical := some t }
  | .blockstate, t => { d with blockstate := some t }

def find {α : Type} (d : Database) (table : TableName) (pick : FormatTables → ByName α)
    (format : FormatKey) (id : RecordId) : Except NotFound α :=
  match (d.tables? format).bind fun t => ((pick t).get? id.space).bind (·.get? id.base) with
  | some x => .ok x
  | none => .error ⟨table, format, id⟩

def specification (d : Database) : FormatKey → RecordId → Except NotFound Specification :=
  d.find .specification FormatTables.specification

def toUniversal (d : Database) : FormatKey → RecordId → Except NotFound (List Rule) :=
  d.find .toUniversal FormatTables.toUniversal

def fromUniversal (d : Database) : FormatKey → RecordId → Except NotFound (List Rule) :=
  d.find .fromUniversal FormatTables.fromUniversal

def namespaces (d : Database) (format : FormatKey) : List String :=
  ((d.tables? format).map fun t => t.specification.keys).getD []

def baseNames (d : Database) (format : FormatKey) (space : String) : List String :=
  (((d.tables? format).bind fun t => t.specification.get? space).map Dict.keys).getD []

open Json (Decoder record?)
open Json.Decoder

/-- The number of arrays and objects around a rule list in a database. -/
def ruleListDepth : Nat := 4

def decodeTables : Decoder FormatTables := fun j => do
  let f ← record? ["specification", "to_universal", "from_universal"] j
  let specification ← f.withDefault "specification" ∅ (dict (dict Specification.decode))
  let rules := Rule.Loader.ruleList ruleListDepth
  let toUniversal ← f.withDefault "to_universal" ∅ (dict (dict rules))
  let fromUniversal ← f.withDefault "from_universal" ∅ (dict (dict rules))
  return ⟨specification, toUniversal, fromUniversal⟩

def decode : Decoder Database := fun j => do
  let ms ← members decodeTables j
  let entries ← ms.mapM fun (k, t) => (FormatKey.ofName? k).map (·, t)
  return entries.foldl (fun d (k, t) => d.set k t) empty

def parse? (text : String) : Option Database := (Json.parse? text).bind decode

end Database

end BlockConvert
