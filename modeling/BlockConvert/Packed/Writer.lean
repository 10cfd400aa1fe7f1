import BlockConvert.Packed.Raw
import BlockConvert.Text.ModifiedUtf8

set_option autoImplicit false

/-!
# Stored bytes

The layout of stored tags: big endian numbers, texts in modified UTF-8 after a length of two bytes,
lists as an element number, a length and payloads, arrays as a length and elements, compounds as
fields up to a zero byte. A root is the number of the compound kind, its name and its payload.
-/

namespace BlockConvert.Packed

/-- A number modulo `256 ^ width` as `width` bytes, most significant first. -/
def bigEndian : (width : Nat) → Nat → List UInt8
  | 0, _ => []
  | width + 1, n => bigEndian width (n / 256) ++ [UInt8.ofNat n]

def textBytes (s : String) : List UInt8 :=
  let bytes := Text.encodeModified s.toList
  bigEndian 2 bytes.length ++ bytes

/-- An empty list is written without an element kind. -/
def elementId : List Raw → Nat
  | [] => 0
  | r :: _ => r.kind.id

mutual

def payload : Raw → List UInt8
  | .byte v => bigEndian 1 v.toBitVec.toNat
  | .short v => bigEndian 2 v.toBitVec.toNat
  | .int v => bigEndian 4 v.toBitVec.toNat
  | .long v => bigEndian 8 v.toBitVec.toNat
  | .float b => bigEndian 4 b.toNat
  | .double b => bigEndian 8 b.toNat
  | .byteArray vs =>
    bigEndian 4 vs.length ++ vs.flatMap fun v => bigEndian 1 v.toBitVec.toNat
  | .string s => textBytes s
  | .list items => bigEndian 1 (elementId items) ++ bigEndian 4 items.length ++ payloads items
  | .compound entries => fields entries ++ [0]
  | .intArray vs => bigEndian 4 vs.length ++ vs.flatMap fun v => bigEndian 4 v.toBitVec.toNat
  | .longArray vs => bigEndian 4 vs.length ++ vs.flatMap fun v => bigEndian 8 v.toBitVec.toNat

def payloads : List Raw → List UInt8
  | [] => []
  | r :: rest => payload r ++ payloads rest

def fields : List (String × Raw) → List UInt8
  | [] => []
  | (k, r) :: rest => bigEndian 1 r.kind.id ++ textBytes k ++ payload r ++ fields rest

end

def rootBytes (name : String) (entries : List (String × Raw)) : List UInt8 :=
  bigEndian 1 Kind.compound.id ++ textBytes name ++ payload (.compound entries)

end BlockConvert.Packed
