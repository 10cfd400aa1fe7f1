import BlockConvert.Block
import BlockConvert.Rule.Loader

set_option autoImplicit false

/-!
# Specifications

What one version declares about a record: the properties it has by default, the values each property
may take, and the tree that belongs to it. `combinations` lists every choice of one value for each
property.
-/

namespace BlockConvert

structure Template where
  id : RecordId
  rootName : String
  rootKind : Kind
  tag : Tag
deriving DecidableEq

structure Specification where
  defaults : Properties
  valid : Dict (List Tag)
  template : Option Template

namespace Specification

def empty : Specification := ⟨∅, ∅, none⟩

def extendBy (key : String) (values : List Tag) (choices : List Properties) : List Properties :=
  choices.flatMap fun c => values.map fun v => c.insert key v

/-- Every choice of one value for each property, the last property varying fastest. -/
def combinations (s : Specification) : List Properties :=
  s.valid.entries.foldl (fun choices e => extendBy e.1 e.2 choices) [∅]

open Json (Decoder record?)
open Json.Decoder

def decode : Decoder Specification := fun j => do
  let f ← record? ["properties", "defaults", "nbt_identifier", "snbt", "outer_name", "outer_type"] j
  let valid ← f.withDefault "properties" ∅ (dict (list tag))
  let defaults ← f.withDefault "defaults" ∅ (dict tag)
  let identifier ← f.optional "nbt_identifier" (pair text text)
  let tag ← f.optional "snbt" tag
  let rootName ← f.withDefault "outer_name" "" text
  let rootKind ← f.optional "outer_type" (kind false)
  let (space, base) := identifier.getD ("unknown", "unknown")
  return {
    defaults, valid
    template := tag.map fun t => ⟨⟨space, base⟩, rootName, rootKind.getD .compound, t⟩ }

def parse? (text : String) : Option Specification := (Json.parse? text).bind decode

end Specification

end BlockConvert
