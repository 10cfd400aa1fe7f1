import BlockConvert.Interpreter

set_option autoImplicit false

/-!
# One conversion

The rules are run on the input, and the record that they name is built: a block with the properties
of the rules over the defaults of its specification, and a block entity if the specification has a
tree; or an entity. The tree is painted over the template of the specification.
-/

namespace BlockConvert

structure Request where
  input : Record
  specification : Specification
  rules : List Rule
  target : VersionData
  forceBlockstate : Bool
  resources : Resources
  extraInput : Option BlockEntity
  /-- Whether output trees start from the template. -/
  prepopulate : Bool
  location : Option Coords

structure Conversion where
  output : Record
  extraOutput : Option BlockEntity
  extraNeeded : Bool
  cacheable : Bool
deriving DecidableEq

structure Report where
  result : Except ConversionError Conversion
  notices : List Notice

namespace Conversion

def unchanged (input : Record) (extraInput : Option BlockEntity) (extraNeeded : Bool) :
    Conversion := ⟨input, extraInput, extraNeeded, false⟩

end Conversion

namespace Request

def place (q : Request) : Coords := q.location.getD .origin

def format (q : Request) : FormatKey := q.target.formatKey q.forceBlockstate

/-- The tree that belongs to the input. A block that should have one gets that of the block entity
around the origin, or the template. -/
def inputTree (q : Request) : Except ConversionError (Option Tag) :=
  match q.input with
  | .entity e =>
    match q.extraInput with
    | some _ => .error .entityExtraInput
    | none => .ok (some e.tree.tag)
  | .block _ =>
    match q.extraInput, q.specification.template, q.resources.lookup with
    | some extra, _, _ => .ok (some extra.tree.tag)
    | none, some template, some lookup =>
      match lookup .origin with
      | .error e => .error (.lookup e)
      | .ok found => .ok (some ((found.blockEntity.map fun b => b.tree.tag).getD template.tag))
    | none, _, _ => .ok none

def decide (q : Request) (tree : Option Tag) : Outcome :=
  Rule.runAll q.resources q.rules (.start q.input tree q.place) .fresh

def outputName (s : State) : Except ConversionError (RecordId × RecordKind) :=
  match s.outputId, s.outputKind with
  | some text, some kind =>
    match RecordId.ofText? text with
    | some id => .ok (id, kind)
    | none => .error (.badIdentifier text)
  | _, _ => .error .noOutput

-- an edit that overflows counts as lost, as one that is dropped does
def paint (q : Request) (template : Template) (s : State) : Paint.Painting :=
  Paint.build template.rootName template.rootKind s.edits
    (if q.prepopulate then some template.tag else none)

def dropped (p : Paint.Painting) : List Notice := p.lost.map .editDropped

def buildBlock (q : Request) (id : RecordId) (spec : Specification) (s : State) :
    Conversion × List Notice :=
  let output := Block.new id (spec.defaults.extend s.properties.entries)
  match spec.template with
  | some template =>
    let p := q.paint template s
    (⟨.block output, some ⟨template.id, q.place, p.tree⟩, s.extraNeeded, s.cacheable⟩, dropped p)
  | none =>
    (⟨.block output, none, s.extraNeeded, s.cacheable⟩,
      if s.edits.isEmpty then [] else [.treeWithoutOutput q.input output])

def entityLocation (q : Request) : Location :=
  match q.input with
  | .entity e => e.location
  | .block _ => .ofCoords q.place

def buildEntity (q : Request) (id : RecordId) (spec : Specification) (s : State) :
    Conversion × List Notice :=
  let p := match spec.template with
    | some template => q.paint template s
    | none => Paint.build "" .compound s.edits none
  (⟨.entity ⟨id, q.entityLocation, p.tree⟩, none, s.extraNeeded, s.cacheable⟩, dropped p)

def build (q : Request) (s : State) : Except ConversionError (Conversion × List Notice) :=
  match outputName s with
  | .error e => .error e
  | .ok (id, kind) =>
    let database := match kind with
      | .block => q.target.block
      | .entity => q.target.entity
    match database.specification q.format id with
    | .error e => .error (.notFound e)
    | .ok spec =>
      match kind with
      | .block => .ok (q.buildBlock id spec s)
      | .entity => .ok (q.buildEntity id spec s)

def run (q : Request) : Report :=
  match q.inputTree with
  | .error e => ⟨.error e, []⟩
  | .ok tree =>
    let o := q.decide tree
    match o.failure with
    | some e => ⟨.error e, o.notices⟩
    | none =>
      match q.build o.state with
      | .error e => ⟨.error e, o.notices⟩
      | .ok (c, ns) => ⟨.ok c, o.notices ++ ns⟩

end Request

end BlockConvert
