set_option autoImplicit false

/-!
# Tag kinds

The twelve kinds of tags, with the numbers that stored tags use and the names that rule files use.
-/

namespace BlockConvert

inductive Kind where
  | byte
  | short
  | int
  | long
  | float
  | double
  | byteArray
  | string
  | list
  | compound
  | intArray
  | longArray
deriving DecidableEq

namespace Kind

def id : Kind → Nat
  | byte => 1
  | short => 2
  | int => 3
  | long => 4
  | float => 5
  | double => 6
  | byteArray => 7
  | string => 8
  | list => 9
  | compound => 10
  | intArray => 11
  | longArray => 12

def name : Kind → String
  | byte => "byte"
  | short => "short"
  | int => "int"
  | long => "long"
  | float => "float"
  | double => "double"
  | byteArray => "byte_array"
  | string => "string"
  | list => "list"
  | compound => "compound"
  | intArray => "int_array"
  | longArray => "long_array"

def all : List Kind :=
  [byte, short, int, long, float, double, byteArray, string, list, compound, intArray, longArray]

def ofName? (name : String) : Option Kind := all.find? fun k => k.name == name

def ofId? (id : Nat) : Option Kind := all.find? fun k => k.id == id

def isNumeric : Kind → Bool
  | byte | short | int | long | float | double => true
  | _ => false

def arrayElement? : Kind → Option Kind
  | byteArray => some byte
  | intArray => some int
  | longArray => some long
  | _ => none

theorem ofId?_id (k : Kind) : ofId? k.id = some k := by cases k <;> decide

theorem id_injective {a b : Kind} (h : a.id = b.id) : a = b := by
  have := congrArg ofId? h
  simpa [ofId?_id] using this

end Kind

end BlockConvert
