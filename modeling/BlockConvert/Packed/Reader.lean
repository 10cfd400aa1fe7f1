import BlockConvert.Packed.Writer

set_option autoImplicit false

/-!
# Reading stored bytes

Every payload takes at least one byte, so the number of bytes bounds nesting and the number of
fields of a compound. Of fields with one key the last counts. Lengths are limited; bytes after the
root are left alone.
-/

namespace BlockConvert.Packed

abbrev Reader (α : Type) : Type := List UInt8 → Option (α × List UInt8)

def ofBigEndian (bytes : List UInt8) : Nat := bytes.foldl (fun n b => n * 256 + b.toNat) 0

def takeBytes : (count : Nat) → Reader (List UInt8)
  | 0, bytes => some ([], bytes)
  | _ + 1, [] => none
  | count + 1, b :: rest => (takeBytes count rest).map fun (taken, r) => (b :: taken, r)

def number (width : Nat) : Reader Nat := fun bytes =>
  (takeBytes width bytes).map fun (taken, rest) => (ofBigEndian taken, rest)

def lengthLimit : Nat := 100000000

/-- A length, as a signed number of four bytes that is not negative and within the limit. -/
def length : Reader Nat := fun bytes => do
  let (n, rest) ← number 4 bytes
  if n ≤ lengthLimit then return (n, rest) else none

def text : Reader String := fun bytes => do
  let (n, rest) ← number 2 bytes
  let (taken, rest) ← takeBytes n rest
  let chars ← Text.decodeStored? taken
  return (String.ofList chars, rest)

def times {α : Type} (item : Reader α) : (count : Nat) → Reader (List α)
  | 0, bytes => some ([], bytes)
  | count + 1, bytes => do
    let (x, rest) ← item bytes
    let (xs, rest) ← times item count rest
    return (x :: xs, rest)

def counted {α : Type} (item : Reader α) : Reader (List α) := fun bytes => do
  let (n, rest) ← length bytes
  times item n rest

def int8 : Reader Int8 := fun bytes =>
  (number 1 bytes).map fun (n, rest) => (Int8.ofBitVec (BitVec.ofNat 8 n), rest)

def int16 : Reader Int16 := fun bytes =>
  (number 2 bytes).map fun (n, rest) => (Int16.ofBitVec (BitVec.ofNat 16 n), rest)

def int32 : Reader Int32 := fun bytes =>
  (number 4 bytes).map fun (n, rest) => (Int32.ofBitVec (BitVec.ofNat 32 n), rest)

def int64 : Reader Int64 := fun bytes =>
  (number 8 bytes).map fun (n, rest) => (Int64.ofBitVec (BitVec.ofNat 64 n), rest)

/-- Fields up to a zero byte, none with a reserved key. -/
def fieldList (read : Kind → Reader Raw) : (bound : Nat) → Reader (List (String × Raw))
  | 0, _ => none
  | bound + 1, bytes => do
    let (id, rest) ← number 1 bytes
    if id = 0 then return ([], rest)
    let kind ← Kind.ofId? id
    let (key, rest) ← text rest
    if Raw.reservedKeys.contains key then none
    let (value, rest) ← read kind rest
    let (more, rest) ← fieldList read bound rest
    return ((key, value) :: more, rest)

/-- The items of a list; a list without an element kind is empty. -/
def listItems (read : Kind → Reader Raw) : Reader (List Raw) := fun bytes => do
  let (id, rest) ← number 1 bytes
  let (n, rest) ← length rest
  if id = 0 then
    if n = 0 then return ([], rest) else none
  else
    let kind ← Kind.ofId? id
    times (read kind) n rest

def value : (bound : Nat) → Kind → Reader Raw
  | 0, _ => fun _ => none
  | bound + 1, kind => fun bytes =>
    match kind with
    | .byte => (int8 bytes).map fun (v, rest) => (.byte v, rest)
    | .short => (int16 bytes).map fun (v, rest) => (.short v, rest)
    | .int => (int32 bytes).map fun (v, rest) => (.int v, rest)
    | .long => (int64 bytes).map fun (v, rest) => (.long v, rest)
    | .float => (number 4 bytes).map fun (n, rest) => (.float (UInt32.ofNat n), rest)
    | .double => (number 8 bytes).map fun (n, rest) => (.double (UInt64.ofNat n), rest)
    | .byteArray => (counted int8 bytes).map fun (vs, rest) => (.byteArray vs, rest)
    | .string => (text bytes).map fun (s, rest) => (.string s, rest)
    | .list => (listItems (value bound) bytes).map fun (items, rest) => (.list items, rest)
    | .compound =>
      (fieldList (value bound) bytes.length bytes).map fun (entries, rest) =>
        (.compound (Table.ofEntries entries), rest)
    | .intArray => (counted int32 bytes).map fun (vs, rest) => (.intArray vs, rest)
    | .longArray => (counted int64 bytes).map fun (vs, rest) => (.longArray vs, rest)

def root : Reader (String × Raw) := fun bytes => do
  let (id, rest) ← number 1 bytes
  if id = Kind.compound.id then
    let (name, rest) ← text rest
    let (r, rest) ← value (bytes.length + 1) .compound rest
    return ((name, r), rest)
  else none

end BlockConvert.Packed
