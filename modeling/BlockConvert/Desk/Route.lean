import BlockConvert.Conversion

set_option autoImplicit false

/-!
# Routes

Converting a record to the universal form or from it needs the specification of the input, the rules
of the native version, and the version of the output. What the universal version declares is always
looked up in the blockstate layout.
-/

namespace BlockConvert

structure Converters where
  version : VersionData
  universal : VersionData
  scripts : Scripts
  prepopulate : Bool

structure Route where
  specification : Specification
  rules : List Rule
  target : VersionData
  forceBlockstate : Bool

namespace Converters

def database (v : VersionData) : RecordKind → Database
  | .block => v.block
  | .entity => v.entity

def route (c : Converters) (kind : RecordKind) (direction : Direction) (forceBlockstate : Bool)
    (id : RecordId) : Except NotFound Route := do
  let native := database c.version kind
  let format := c.version.formatKey forceBlockstate
  match direction with
  | .toUniversal =>
    let specification ← native.specification format id
    let rules ← native.toUniversal format id
    return ⟨specification, rules, c.universal, true⟩
  | .fromUniversal =>
    let specification ← (database c.universal kind).specification .blockstate id
    let rules ← native.fromUniversal format id
    return ⟨specification, rules, c.version, forceBlockstate⟩

def subject (c : Converters) (record : Record) (direction : Direction) : Subject :=
  ⟨record, direction, c.version.info⟩

def request (c : Converters) (route : Route) (record : Record) (lookup : Option Lookup)
    (extraInput : Option BlockEntity) (location : Option Coords) : Request where
  input := record
  specification := route.specification
  rules := route.rules
  target := route.target
  forceBlockstate := route.forceBlockstate
  resources := ⟨c.scripts, lookup⟩
  extraInput := extraInput
  prepopulate := c.prepopulate
  location := location

end Converters

end BlockConvert
