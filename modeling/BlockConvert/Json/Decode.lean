import BlockConvert.Json.Parser
import BlockConvert.Table

set_option autoImplicit false

/-!
# Decoding JSON values

Decoders accept a value or not. A record is an object whose fields may stand in any order, none of
them twice, among others that are ignored; or an array with the fields in their declared order, of
which the last may be missing.
-/

namespace BlockConvert.Json

abbrev Decoder (α : Type) : Type := Json → Option α

namespace Decoder

variable {α β : Type}

def text : Decoder String
  | .text s => s
  | _ => none

def bool : Decoder Bool
  | .bool b => some b
  | _ => none

def integer : Decoder Int
  | .number (some (.integer n)) => some n
  | _ => none

def signed (bits : Nat) : Decoder Int := fun j => (integer j).filter (Decimal.isSigned bits)

def unsigned (bits : Nat) : Decoder Int := fun j => (integer j).filter (Decimal.isUnsigned bits)

def natural : Decoder Nat := fun j => (unsigned 64 j).map Int.toNat

def int32 : Decoder Int32 := fun j => (signed 32 j).map Int32.ofInt

def list (item : Decoder α) : Decoder (List α)
  | .array items => items.mapM item
  | _ => none

def members (value : Decoder α) : Decoder (List (String × α))
  | .object ms => ms.mapM fun (k, j) => do
    let key ← k
    let v ← value j
    return (key, v)
  | _ => none

/-- An object as a dictionary; the last of equal keys wins. -/
def dict (value : Decoder α) : Decoder (Dict α) := fun j => (members value j).map Dict.ofList

def nullable (value : Decoder α) : Decoder (Option α)
  | .null => some none
  | j => (value j).map some

def pair (first : Decoder α) (second : Decoder β) : Decoder (α × β)
  | .array [a, b] => do
    let x ← first a
    let y ← second b
    return (x, y)
  | _ => none

def triple (item : Decoder α) : Decoder (α × α × α)
  | .array [a, b, c] => do
    let x ← item a
    let y ← item b
    let z ← item c
    return (x, y, z)
  | _ => none

/-- One of several names: a text, or an object with the name as its only key and nothing under it.
Inside a value that was taken as a whole, an empty object also counts as nothing. -/
def name (whole : Bool) (read? : String → Option α) : Decoder α
  | .text (some s) => read? s
  | .object [(some s, .null)] => read? s
  | .object [(some s, .object [])] => if whole then read? s else none
  | _ => none

end Decoder

abbrev Fields : Type := String → Option Json

namespace Fields

variable {α : Type}

def required (fields : Fields) (field : String) (d : Decoder α) : Option α :=
  (fields field).bind d

def withDefault (fields : Fields) (field : String) (default : α) (d : Decoder α) : Option α :=
  match fields field with
  | none => some default
  | some j => d j

def optional (fields : Fields) (field : String) (d : Decoder α) : Option (Option α) :=
  fields.withDefault field none (Decoder.nullable d)

end Fields

def membersNamed (field : String) (ms : List (Option String × Json)) : List Json :=
  ms.filterMap fun (k, j) => if k = some field then some j else none

def record? (names : List String) : Json → Option Fields
  | .object ms =>
    if ms.all (fun m => m.1.isSome) &&
        names.all (fun n => decide ((membersNamed n ms).length ≤ 1)) then
      some fun field => (membersNamed field ms).head?
    else none
  | .array items =>
    if items.length ≤ names.length then
      some fun field => (names.zip items).lookup field
    else none
  | _ => none

end BlockConvert.Json
