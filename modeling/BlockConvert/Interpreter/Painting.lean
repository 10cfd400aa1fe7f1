import BlockConvert.Interpreter.Frame
import BlockConvert.Tag.Cast

set_option autoImplicit false

/-!
# Actions that paint

New tags, and tags carried over from the position of a walk, become edits of the state.
-/

namespace BlockConvert

namespace NewTag

def edit (n : NewTag) (cursor : Option Cursor) : Edit :=
  ⟨n.rootName, n.rootKind, n.path <|> cursor.map Cursor.path |>.getD [], n.key, n.value⟩

end NewTag

namespace Action

def paint (entries : List NewTag) : Action := fun f s =>
  .done (s.withEdits (entries.map (·.edit f.cursor)))

end Action

namespace Carry

/-- The edit that carries the tag at a cursor, by default to the same place and as the same kind. -/
def edit (c : Carry) (cursor : Cursor) : Except ConversionError Edit :=
  match cursor.path.getLast? with
  | none => .error .rootCarry
  | some last =>
    let kind := c.kind.getD last.kind
    match cursor.value.cast? kind with
    | none => .error (.cast cursor.value.kind kind)
    | some value =>
      .ok ⟨c.rootName, c.rootKind, c.path.getD cursor.path.dropLast, c.key.getD last.key, value⟩

end Carry

namespace Action

def carry (c : Carry) : Action :=
  beyondRecord <| atCursor "carry_nbt" fun cursor =>
    match c.edit cursor with
    | .ok e => update (·.withEdits [e])
    | .error e => fail e

end Action

end BlockConvert
