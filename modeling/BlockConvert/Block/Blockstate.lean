import BlockConvert.Block
import BlockConvert.Snbt.Parser

set_option autoImplicit false

/-!
# Reading blockstates

A blockstate is a name and, in square brackets, properties with commas between them. A property
value is a tag, but a word that begins with a letter is always a text. Commas inside quotes do not
part properties.
-/

namespace BlockConvert

inductive BlockstateError where
  | missingName (text : String)
  | unterminated (text : String)
  | property (text : String)
  | value (key : String) (cause : SnbtError)
deriving DecidableEq

namespace BlockstateError

def message : BlockstateError → String
  | missingName s => "blockstate " ++ Text.quoted s ++ " has no base name"
  | unterminated s => "blockstate " ++ Text.quoted s ++ " has an unterminated property list"
  | property s => "property " ++ Text.quoted s ++ " is not key=value"
  | value k cause => "property " ++ Text.quoted k ++ " has an invalid value: " ++ cause.message

end BlockstateError

namespace Blockstate

/-- Where a scan for commas stands: outside quotes, inside them, or after a backslash inside. -/
inductive Scan where
  | outside
  | inside (quote : Char)
  | escaped (quote : Char)

namespace Scan

def next : Scan → Char → Scan
  | outside, c => if c = '"' ∨ c = '\'' then inside c else outside
  | inside q, c => if c = '\\' then escaped q else if c = q then outside else inside q
  | escaped q, _ => inside q

end Scan

/-- The pieces between the commas outside quotes; there is at least one. -/
def splitProperties (scan : Scan) : List Char → List (List Char)
  | [] => [[]]
  | c :: rest =>
    match scan, c with
    | .outside, ',' => [] :: splitProperties .outside rest
    | _, _ =>
      match splitProperties (scan.next c) rest with
      | [] => [[c]]
      | piece :: pieces => (c :: piece) :: pieces

def isWord (cs : List Char) : Bool :=
  cs.all (fun c => c.isAlphanum || c == '_') && (cs.head?.map Char.isAlpha).getD false

def propertyValue (key value : List Char) : Except BlockstateError Tag :=
  if isWord value then .ok (.string (String.ofList value))
  else (Snbt.readChars value).mapError (BlockstateError.value (String.ofList key))

/-- Adds the property that a piece spells; a blank piece spells none. -/
def addProperty (properties : Properties) (piece : List Char) :
    Except BlockstateError Properties :=
  let pair := Text.trim piece
  if pair.isEmpty then .ok properties
  else match Text.splitOnce '=' pair with
    | none => .error (.property (String.ofList pair))
    | some (k, v) =>
      let key := Text.trim k
      (propertyValue key (Text.trim v)).map fun t => properties.insert (String.ofList key) t

/-- The name and, if there is an opening bracket, the text between the brackets. -/
def splitName (text : List Char) : Except BlockstateError (List Char × Option (List Char)) :=
  match Text.splitOnce '[' text with
  | none => .ok (text, none)
  | some (name, inner) =>
    if inner.getLast? = some ']' then .ok (name, some inner.dropLast)
    else .error (.unterminated (String.ofList text))

def readChars (text : List Char) : Except BlockstateError Block := do
  let text := Text.trim text
  let (name, inner) ← splitName text
  let id := RecordId.ofName (String.ofList name)
  if id.base.isEmpty then throw (.missingName (String.ofList text))
  let properties ← match inner with
    | none => pure ∅
    | some inner => (splitProperties .outside inner).foldlM addProperty ∅
  return Block.new id properties

end Blockstate

/-- Reads a blockstate; a name without a space lies in the default one. -/
def Block.ofBlockstate (text : String) : Except BlockstateError Block :=
  Blockstate.readChars text.toList

end BlockConvert
