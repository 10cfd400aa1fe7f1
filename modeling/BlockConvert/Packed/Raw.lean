import BlockConvert.Tag

set_option autoImplicit false

/-!
# Raw values

What stored bytes hold before lists are checked: a list may mix kinds, it has no element kind of its
own, and the entries of a compound stand in any order. A raw value becomes a tag if no list in it
mixes kinds. Some keys of compounds cannot be stored.
-/

namespace BlockConvert

inductive Raw where
  | byte (value : Int8)
  | short (value : Int16)
  | int (value : Int32)
  | long (value : Int64)
  | float (bits : UInt32)
  | double (bits : UInt64)
  | byteArray (values : List Int8)
  | string (text : String)
  | list (items : List Raw)
  | compound (entries : List (String × Raw))
  | intArray (values : List Int32)
  | longArray (values : List Int64)
deriving Inhabited

/-- The kinds of the first element of a list and of the first that differs from it. -/
structure MixedKinds where
  first : Kind
  second : Kind
deriving DecidableEq

namespace Raw

def kind : Raw → Kind
  | byte _ => .byte
  | short _ => .short
  | int _ => .int
  | long _ => .long
  | float _ => .float
  | double _ => .double
  | byteArray _ => .byteArray
  | string _ => .string
  | list _ => .list
  | compound _ => .compound
  | intArray _ => .intArray
  | longArray _ => .longArray

def homogeneous (items : List Tag) : Except MixedKinds Tag :=
  match items with
  | [] => .ok (.list none [])
  | t :: _ =>
    match items.find? fun u => u.kind != t.kind with
    | some u => .error ⟨t.kind, u.kind⟩
    | none => .ok (.list (some t.kind) items)

mutual

def toTag : Raw → Except MixedKinds Tag
  | byte v => .ok (.byte v)
  | short v => .ok (.short v)
  | int v => .ok (.int v)
  | long v => .ok (.long v)
  | float b => .ok (.float b)
  | double b => .ok (.double b)
  | byteArray vs => .ok (.byteArray vs)
  | string s => .ok (.string s)
  | list items => (toTags items).bind homogeneous
  | compound entries => (toEntries entries).map fun es => .compound (Table.ofEntries es)
  | intArray vs => .ok (.intArray vs)
  | longArray vs => .ok (.longArray vs)

def toTags : List Raw → Except MixedKinds (List Tag)
  | [] => .ok []
  | r :: rest => do
    let t ← toTag r
    let ts ← toTags rest
    return t :: ts

def toEntries : List (String × Raw) → Except MixedKinds (List (String × Tag))
  | [] => .ok []
  | (k, r) :: rest => do
    let t ← toTag r
    let es ← toEntries rest
    return (k, t) :: es

end

/-- Keys that are set aside for arrays. A compound with one of them is neither written nor read. -/
def reservedKeys : List String :=
  ["__fastnbt_byte_array", "__fastnbt_int_array", "__fastnbt_long_array"]

mutual

def isStorable : Raw → Bool
  | list items => storableItems items
  | compound entries => storableEntries entries
  | _ => true

def storableItems : List Raw → Bool
  | [] => true
  | r :: rest => isStorable r && storableItems rest

def storableEntries : List (String × Raw) → Bool
  | [] => true
  | (k, r) :: rest => !reservedKeys.contains k && isStorable r && storableEntries rest

end

end Raw

namespace Tag

mutual

def toRaw : Tag → Raw
  | byte v => .byte v
  | short v => .short v
  | int v => .int v
  | long v => .long v
  | float b => .float b
  | double b => .double b
  | byteArray vs => .byteArray vs
  | string s => .string s
  | list _ items => .list (toRaws items)
  | compound entries => .compound (toRawEntries entries)
  | intArray vs => .intArray vs
  | longArray vs => .longArray vs

def toRaws : List Tag → List Raw
  | [] => []
  | t :: rest => toRaw t :: toRaws rest

def toRawEntries : List (String × Tag) → List (String × Raw)
  | [] => []
  | (k, t) :: rest => (k, toRaw t) :: toRawEntries rest

end

end Tag

end BlockConvert
