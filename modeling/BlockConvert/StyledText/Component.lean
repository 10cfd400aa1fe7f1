import BlockConvert.Json.Parser
import BlockConvert.Json.Quoted
import BlockConvert.StyledText.Section
import BlockConvert.Text.Split

set_option autoImplicit false

/-!
# JSON text components

Section text becomes an array of components, one for each run. JSON text becomes section text: its
components are taken in reading order, and codes are written only where the style changes. As codes
cannot switch anything off, a style that loses a colour or a flag is reset first.
-/

namespace BlockConvert.StyledText

structure Component where
  text : List Char
  namesColour : Bool
  style : Style
deriving DecidableEq

namespace Component

def blank : Component := ⟨[], false, Style.plain⟩

def last? (key : String) (ms : List (Option String × Json)) : Option Json :=
  (ms.reverse.find? fun m => m.1 == some key).map Prod.snd

def flag (ms : List (Option String × Json)) (f : Flag) : Bool :=
  match last? f.name ms with
  | some (.bool b) => b
  | _ => false

def ofMembers (ms : List (Option String × Json)) : Component where
  text := match last? "text" ms with
    | some (.text (some s)) => s.toList
    | _ => []
  namesColour := (last? "color" ms).isSome
  style := {
    colour := match last? "color" ms with
      | some (.text (some s)) => Colour.ofName? s
      | _ => none
    obfuscated := flag ms .obfuscated
    bold := flag ms .bold
    italic := flag ms .italic
    strikethrough := flag ms .strikethrough
    underlined := flag ms .underlined }

mutual

def ofJson : Json → List Component
  | .text s => [{ blank with text := (s.getD "").toList }]
  | .array items => ofItems items
  | .object ms => ofMembers ms :: (ofExtra ms).getD []
  | _ => [blank]

def ofItems : List Json → List Component
  | [] => []
  | j :: rest => ofJson j ++ ofItems rest

def ofExtra : List (Option String × Json) → Option (List Component)
  | [] => none
  | (k, j) :: rest =>
    match ofExtra rest with
    | some cs => some cs
    | none => if k = some "extra" then some (ofJson j) else none

end

/-- A run as JSON: a text alone if it is plain, else an object with what is set. -/
def renderRun (r : Run) : List Char :=
  if r.style = Style.plain then Json.quoted r.text
  else
    let member (key : String) (value : List Char) := ',' :: (Json.quoted key.toList ++ ':' :: value)
    '\x7b' :: (Json.quoted "text".toList ++ ':' :: Json.quoted r.text ++
      (Flag.all.filter r.style.has).flatMap (fun f => member f.name "true".toList) ++
      (match r.style.colour with
       | some k => member "color" (Json.quoted k.name.toList)
       | none => []) ++ ['\x7d'])

def renderRuns (rs : List Run) : List Char :=
  '[' :: (Text.joinWith ',' (rs.map renderRun) ++ [']'])

def needsReset (current : Style) (c : Component) : Bool :=
  (!c.namesColour && current.colour.isSome) || (c.namesColour && c.style.colour.isNone) ||
    Flag.all.any fun f => current.has f && !c.style.has f

/-- The style to which the colour and the flags of a component are added. -/
def base (current : Style) (c : Component) : Style :=
  if needsReset current c then Style.plain else current

def coloured (start : Style) (c : Component) : Style :=
  match c.style.colour with
  | some k => { start with colour := some k }
  | none => start

def colourCodes (start : Style) (c : Component) : List Char :=
  match c.style.colour with
  | some k => if start.colour = some k then [] else [k.code]
  | none => []

def newFlags (start : Style) (c : Component) : List Flag :=
  Flag.all.filter fun f => c.style.has f && !start.has f

def codes (current : Style) (c : Component) : List Char :=
  let start := base current c
  (if needsReset current c then [Style.resetCode] else []) ++ colourCodes start c ++
    (newFlags start c).map Flag.code

/-- The style that is current after the codes before a component. -/
def tracked (current : Style) (c : Component) : Style :=
  let start := base current c
  (newFlags start c).foldl Style.switchOn (coloured start c)

def sectionFrom (current : Style) : List Component → List Char
  | [] => []
  | c :: rest =>
    (codes current c).flatMap (fun code => [Style.sign, code]) ++ c.text ++
      sectionFrom (tracked current c) rest

end Component

def toComponents (s : List Char) : List Char := Component.renderRuns (runs s)

def linesToComponents (s : List Char) : List (List Char) :=
  (Text.splitAll '\n' s).map toComponents

/-- JSON components as section text; a text that is not JSON gives nothing. -/
def ofComponents (json : List Char) : List Char :=
  match Json.parse? (String.ofList json) with
  | some j =>
    if j.isWhole 0 then Component.sectionFrom Style.plain (Component.ofJson j) else []
  | none => []

def linesOfComponents (lines : List (List Char)) : List Char :=
  Text.joinWith '\n' (lines.map ofComponents)

end BlockConvert.StyledText
