import BlockConvert.Interpreter.State

set_option autoImplicit false

/-!
# Where rules look

A frame is the record that rules look at, its tree if it is known, its place, and the position of a
walk in the tree. An action is what rules do in a frame; actions run one after another until one
fails.
-/

namespace BlockConvert

/-- The position of a walk: the path from the root and the tag there. -/
structure Cursor where
  path : Path
  value : Tag
deriving DecidableEq

structure Frame where
  record : Record
  tree : Option Tag
  absolute : Coords
  /-- The offset from the record that is converted. -/
  relative : Coords
  cursor : Option Cursor
deriving DecidableEq

namespace Frame

def start (record : Record) (tree : Option Tag) (location : Coords) : Frame :=
  ⟨record, tree, location, .origin, none⟩

def positioned (f : Frame) (cursor : Cursor) : Frame := { f with cursor := some cursor }

/-- The frame of a block at an offset. A walk goes on at the same path of its tree. -/
def neighbour (f : Frame) (offset : Coords) (block : Block) (tree : Option Tag) : Frame :=
  { record := .block block
    tree := tree
    absolute := f.absolute + offset
    relative := f.relative + offset
    cursor := f.cursor.bind fun c => (tree.bind (·.follow? c.path)).map (⟨c.path, ·⟩) }

end Frame

abbrev Action := Frame → State → Outcome

namespace Action

def skip : Action := fun _ s => .done s

def fail (e : ConversionError) : Action := fun _ s => .fail s e

def update (change : State → State) : Action := fun _ s => .done (change s)

def notify (n : Notice) : Action := fun _ s => ⟨s, [n], none⟩

def andThen (a b : Action) : Action := fun f s => (a f s).andThen (b f)

def sequence : List Action → Action
  | [] => skip
  | a :: rest => a.andThen (sequence rest)

/-- Runs an action that looks at more than the record. -/
def beyondRecord (a : Action) : Action := (update State.uncacheable).andThen a

def needExtra : Action := update State.needingExtra

def onBlock (rule : String) (body : Block → Action) : Action := fun f s =>
  match f.record with
  | .block b => body b f s
  | .entity _ => .fail s (.notABlock rule)

/-- Runs an action at the position of the walk. Outside a walk it fails, or lacks data if there is
no tree. -/
def atCursor (rule : String) (body : Cursor → Action) : Action := fun f s =>
  match f.cursor, f.tree with
  | some c, _ => body c f s
  | none, none => needExtra f s
  | none, some _ => .fail s (.noWalkPosition rule)

end Action

end BlockConvert
