import BlockConvert.Text.Quoted
import BlockConvert.Paint
import BlockConvert.Rule
import BlockConvert.Record

set_option autoImplicit false

/-!
# Scripts

A rule may call a script by name: a pure function from values to values, or an error. Scripts are
kept under their names.
-/

namespace BlockConvert

inductive ScriptValue where
  | text (value : String)
  | properties (value : Properties)
  | tag (value : Tag)
  | location (value : Coords)
  | edits (value : List Edit)
deriving DecidableEq

namespace ScriptValue

def kindName : ScriptValue → String
  | text _ => "string"
  | properties _ => "properties"
  | tag _ => "nbt"
  | location _ => "location"
  | edits _ => "nbt edits"

end ScriptValue

inductive ScriptError where
  | unknown (script : String)
  | argument (script : String) (index : Nat) (expected : String)
  | output (script : String) (slot : ScriptOutput) (found : String)
deriving DecidableEq

namespace ScriptError

def message : ScriptError → String
  | unknown s => "code function " ++ Text.quoted s ++ " is not registered"
  | argument s i expected =>
    "code function " ++ Text.quoted s ++ " expected " ++ expected ++ " as argument " ++ toString i
  | output s slot found =>
    "code function " ++ Text.quoted s ++ " returned " ++ found ++ " for " ++ slot.describe

end ScriptError

abbrev Script := List ScriptValue → Except ScriptError (List ScriptValue)

abbrev Scripts := Dict Script

namespace Scripts

def call (scripts : Scripts) (name : String) : Script := fun args =>
  match scripts.get? name with
  | some script => script args
  | none => .error (.unknown name)

def describe (scripts : Scripts) : String :=
  "FunctionRegistry " ++ "\x7b functions: [" ++ ", ".intercalate (scripts.keys.map Text.quoted) ++
    "] \x7d"

end Scripts

structure ScriptArgs where
  script : String
  values : List ScriptValue

namespace ScriptArgs

def tag (a : ScriptArgs) (index : Nat) : Except ScriptError Tag :=
  match a.values[index]? with
  | some (.tag t) => .ok t
  | _ => .error (.argument a.script index "nbt")

def properties (a : ScriptArgs) (index : Nat) : Except ScriptError Properties :=
  match a.values[index]? with
  | some (.properties p) => .ok p
  | _ => .error (.argument a.script index "properties")

def location (a : ScriptArgs) (index : Nat) : Except ScriptError Coords :=
  match a.values[index]? with
  | some (.location l) => .ok l
  | _ => .error (.argument a.script index "location")

end ScriptArgs

def Script.define (name : String) (body : ScriptArgs → Except ScriptError ScriptValue) :
    String × Script :=
  (name, fun values => (body ⟨name, values⟩).map ([·]))

end BlockConvert
