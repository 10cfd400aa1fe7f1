import BlockConvert.Packed.Reader
import BlockConvert.Tag.Named

set_option autoImplicit false

/-!
# Named tags as bytes

Writing needs a compound root. Reading first checks the kind and the name of the root, then reads
all, then makes a tag of it.
-/

namespace BlockConvert

inductive PackedError where
  /-- The bytes cannot be read, or the tag has a key that cannot be stored. -/
  | malformed
  | mixedList (kinds : MixedKinds)
  | notCompound (found : Kind)
  | header
  | name
deriving DecidableEq

namespace PackedError

/-- The message of an error; malformed bytes have none of this program's making. -/
def message? : PackedError → Option String
  | malformed => none
  | mixedList kinds =>
    some ("list mixes " ++ kinds.first.name ++ " and " ++ kinds.second.name ++ " elements")
  | notCompound k => some ("binary nbt needs a compound root, got " ++ k.name)
  | header => some "truncated root header"
  | name => some "root name is not modified UTF-8"

end PackedError

namespace NamedTag

def toBytes (n : NamedTag) : Except PackedError (List UInt8) :=
  match n.tag with
  | .compound entries =>
    let raw := Tag.toRawEntries entries
    if Raw.storableEntries raw then .ok (Packed.rootBytes n.name raw) else .error .malformed
  | t => .error (.notCompound t.kind)

/-- The name in a root header: the number of a kind, a length of two bytes, modified UTF-8. -/
def headerName : List UInt8 → Except PackedError String
  | [] => .error .header
  | id :: rest =>
    if id.toNat ≠ Kind.compound.id then
      .error (.notCompound ((Kind.ofId? id.toNat).getD .compound))
    else match Packed.number 2 rest with
      | none => .error .header
      | some (n, rest) =>
        match Packed.takeBytes n rest with
        | none => .error .header
        | some (taken, _) =>
          match Text.decodeStored? taken with
          | none => .error .name
          | some chars => .ok (String.ofList chars)

def ofBytes (bytes : List UInt8) : Except PackedError NamedTag := do
  let name ← headerName bytes
  match Packed.root bytes with
  | none => .error .malformed
  | some ((_, raw), _) =>
    match raw.toTag with
    | .error kinds => .error (.mixedList kinds)
    | .ok t => .ok ⟨name, t⟩

end NamedTag

end BlockConvert
