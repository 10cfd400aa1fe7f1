import BlockConvert.Interpreter.Frame

set_option autoImplicit false

/-!
# Actions that call scripts

A script is given values from the frame, in the order in which the call asks for them, and the
values it returns are used for one slot each. Values without a slot and slots without a value are
ignored.
-/

namespace BlockConvert

structure Resources where
  scripts : Scripts
  lookup : Option Lookup

namespace ScriptInput

def value (f : Frame) : ScriptInput → Except ConversionError ScriptValue
  | .namespace => .ok (.text f.record.id.space)
  | .baseName => .ok (.text f.record.id.base)
  | .properties =>
    match f.record with
    | .block b => .ok (.properties b.properties)
    | .entity _ => .error (.notABlock "code")
  | .tree => .ok (.tag (f.tree.getD (Tag.empty .compound)))
  | .location => .ok (.location f.absolute)

def isMissing (f : Frame) (i : ScriptInput) : Bool := i == .tree && f.tree.isNone

end ScriptInput

namespace Action

/-- Collects the arguments of a call up to the first that cannot be given. -/
def collect (body : List ScriptValue → Action) : List ScriptInput → Action
  | [] => body []
  | i :: rest => fun f s =>
    let noted := if i.isMissing f then s.needingExtra else s
    match i.value f with
    | .ok v => collect (fun vs => body (v :: vs)) rest f noted
    | .error e => .fail noted e

def use (script : String) : ScriptOutput → ScriptValue → Action
  | .outputName, .text name => update fun s => { s with outputId := some name }
  | .outputType, .text name =>
    match RecordKind.ofName? name with
    | some kind => update fun s => { s with outputKind := some kind }
    | none => fail (.outputType name)
  | .newProperties, .properties ps => update (·.withProperties ps.entries)
  | .newTags, .edits es => update (·.withEdits es)
  | slot, value => fail (.script (.output script slot value.kindName))

def call (scripts : Scripts) (c : ScriptCall) : Action :=
  beyondRecord <| c.inputs |> collect fun args =>
    match scripts.call c.script args with
    | .ok values => sequence (List.zipWith (use c.script) c.outputs values)
    | .error e => fail (.script e)

end Action

end BlockConvert
