import BlockConvert.RecordId
import BlockConvert.Snbt.Printer

set_option autoImplicit false

/-!
# Blocks

A block has an identifier, properties, and extra layers stacked on it, for example the water in a
waterlogged block. The operations on layers give blocks whose layers have no layers of their own, if
the operands are such blocks. `blockstate` is the canonical text of a block.
-/

namespace BlockConvert

abbrev Properties := Dict Tag

structure Block where
  id : RecordId
  properties : Properties
  layers : List Block

namespace Block

mutual

private def decEqBlock : (a b : Block) → Decidable (a = b)
  | ⟨i, p, l⟩, ⟨j, q, m⟩ =>
    if hi : i = j then
      if hp : p = q then
        match decEqBlocks l m with
        | isTrue hl => isTrue (by rw [hi, hp, hl])
        | isFalse hl => isFalse fun h => hl (Block.mk.inj h).2.2
      else isFalse fun h => hp (Block.mk.inj h).2.1
    else isFalse fun h => hi (Block.mk.inj h).1

private def decEqBlocks : (as bs : List Block) → Decidable (as = bs)
  | [], [] => isTrue rfl
  | [], _ :: _ => isFalse nofun
  | _ :: _, [] => isFalse nofun
  | a :: as, b :: bs =>
    match decEqBlock a b with
    | isTrue h =>
      match decEqBlocks as bs with
      | isTrue k => isTrue (by rw [h, k])
      | isFalse k => isFalse fun e => k (List.cons.inj e).2
    | isFalse h => isFalse fun e => h (List.cons.inj e).1

end

instance : DecidableEq Block := decEqBlock

def new (id : RecordId) (properties : Properties) : Block := ⟨id, properties, []⟩

def base (b : Block) : Block := new b.id b.properties

def flatten (b : Block) : List Block := b.base :: b.layers

def withLayer (b layer : Block) : Block := { b with layers := b.layers ++ layer.flatten }

def withLayers (b : Block) (layers : List Block) : Block :=
  { b with layers := layers.flatMap flatten }

def withoutLayer (b layer : Block) : Block :=
  b.withLayers (b.layers.filter fun l => !decide (l = layer))

def removeLayer (b : Block) (index : Nat) : Block := b.withLayers (b.layers.eraseIdx index)

def IsFlat (b : Block) : Prop := ∀ l ∈ b.layers, l.layers = []

def baseChars (b : Block) : List Char :=
  b.id.text.toList ++
    (if b.properties.entries.isEmpty then []
     else '[' :: (Text.joinWith ','
       (b.properties.entries.map fun e => e.1.toList ++ '=' :: Snbt.render e.2) ++ [']']))

def propertyChars (e : String × Tag) : List Char := e.1.toList ++ '=' :: Snbt.render e.2

def propertiesChars (properties : Properties) : List Char :=
  if properties.entries.isEmpty then []
  else '[' :: (Text.joinWith ',' (properties.entries.map propertyChars) ++ [']'])

theorem propertiesChars_nil {properties : Properties} (h : properties.entries = []) :
    propertiesChars properties = [] :=
  if_pos (by rw [h]; rfl)

theorem propertiesChars_of_ne {properties : Properties} (h : properties.entries ≠ []) :
    propertiesChars properties =
      '[' :: (Text.joinWith ',' (properties.entries.map propertyChars) ++ [']']) :=
  if_neg (by simpa using h)

theorem baseChars_eq (b : Block) : b.baseChars =
    b.id.space.toList ++ ':' :: (b.id.base.toList ++ propertiesChars b.properties) := by
  have hname : b.id.text.toList = b.id.space.toList ++ ':' :: b.id.base.toList := by
    simp [RecordId.text, String.toList_append]
  rw [baseChars, hname, List.append_assoc]
  rfl

def blockstateChars (b : Block) : List Char :=
  b.baseChars ++ b.layers.flatMap fun l => '\x7b' :: (l.baseChars ++ ['\x7d'])

def blockstate (b : Block) : String := String.ofList b.blockstateChars

def describe (b : Block) : String := "Block(" ++ b.blockstate ++ ")"

end Block

end BlockConvert
