import BlockConvert.Script.Child
import BlockConvert.StyledText.Component

set_option autoImplicit false

/-!
# Scripts for texts

The texts of signs and the names of command blocks: one text with line breaks against four lines,
and section text against JSON components.
-/

namespace BlockConvert.Script

def lineKeys : List String := ["Text1", "Text2", "Text3", "Text4"]

def fourLines (s : String) : List String :=
  (((Text.splitAll '\n' s.toList).map String.ofList) ++ List.replicate 4 "").take 4

def signToUniversal : String × Script :=
  define "bedrock_sign_2u" fun args => do
    let t ← args.tag 0
    return .edits ((lineKeys.zip (fourLines (textAt t "Text"))).map fun (key, line) =>
      .new shared (.key key) (.string line))

def signFromUniversal : String × Script :=
  define "bedrock_sign_fu" fun args => do
    let t ← args.tag 0
    let lines := lineKeys.map fun key =>
      (((t.child? sharedKey).map fun u => textAt u key).getD "").toList
    return .edits [.new [] (.key "Text") (.string (String.ofList (Text.joinWith '\n' lines)))]

def signSides : List (String × String) := [("FrontText", "front_text"), ("BackText", "back_text")]

/-- The lines of one side as JSON components; a side without text has none. -/
def sideEdits (t : Tag) (side : String × String) : List Edit :=
  let text := ((t.child? side.1).map fun s => textAt s "Text").getD ""
  if text.isEmpty then []
  else
    let path := shared ++ [.atKey side.2 .compound, .atKey "messages" .list]
    (StyledText.linesToComponents text.toList).zipIdx.map fun (line, i) =>
      .new path (.index i) (.string (String.ofList line))

def signSidesToUniversal : String × Script :=
  define "bedrock_sign_2u_120" fun args => do
    let t ← args.tag 0
    return .edits (signSides.flatMap (sideEdits t))

def commandNameToUniversal : String × Script :=
  define "bedrock_cmd_custom_name_2u" fun args => do
    let t ← args.tag 0
    let name := textAt t "CustomName"
    let json := if name.isEmpty then "\"\"".toList else StyledText.toComponents name.toList
    return .edits [.new shared (.key "CustomName") (.string (String.ofList json))]

def commandNameFromUniversal : String × Script :=
  define "bedrock_cmd_custom_name_fu" fun args => do
    let t ← args.tag 0
    let name := match ((t.child? sharedKey).bind (·.child? "CustomName")).bind Tag.text? with
      | some s => StyledText.ofComponents s.toList
      | none => []
    return .edits [.new [] (.key "CustomName") (.string (String.ofList name))]

end BlockConvert.Script
