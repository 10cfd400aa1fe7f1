import BlockConvert.NumericIds

set_option autoImplicit false

/-!
# Blocks as numbers

A version that stores numbers for blocks gives each name a number; the data of the block is a
property of its own. Numbers that are bound while the program runs come first. A number that no name
has is kept in a property of a block of its own.
-/

namespace BlockConvert.VersionData

def dataKey : String := "block_data"

def idKey : String := "block_id"

def unnamedId : RecordId := ⟨RecordId.defaultSpace, "numerical"⟩

def nameOfNumber? (v : VersionData) (number : Int32) : Option String :=
  (v.blockNumbers.entries.find? fun e => e.2 = number).map Prod.fst

def blockOfNumbers (v : VersionData) (ids : NumericIds) (number data : Int32) : Block :=
  match ids.name? number <|> v.nameOfNumber? number with
  | some name => Block.new (RecordId.ofName name) (Dict.ofList [(dataKey, .int data)])
  | none => Block.new unnamedId (Dict.ofList [(dataKey, .int data), (idKey, .int number)])

/-- The number that a property holds, as a numeric tag or as text. -/
def numberOf? : Tag → Option Int32
  | .string s => (Decimal.signedIn? 32 s.toList).map Int32.ofInt
  | t => (t.integer?.filter fun n => Decimal.isSigned 32 n.toInt).map Int64.toInt32

def numbersOfBlock? (v : VersionData) (ids : NumericIds) (b : Block) : Option (Int32 × Int32) := do
  let data ← (b.properties.get? dataKey).bind numberOf?
  let number ← match ids.number? b.id.text with
    | some n => some n
    | none =>
      if b.id = unnamedId then (b.properties.get? idKey).bind numberOf?
      else v.blockNumbers.get? b.id.text
  return (number, data)

end BlockConvert.VersionData
