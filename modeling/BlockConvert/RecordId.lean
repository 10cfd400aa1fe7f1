import BlockConvert.Text.Split

set_option autoImplicit false

/-!
# Record identifiers

A block or an entity goes by a base name within a name space. The full name has a colon between
them; a name without a colon lies in the default space.
-/

namespace BlockConvert

structure RecordId where
  space : String
  base : String
deriving DecidableEq

namespace RecordId

def defaultSpace : String := "minecraft"

def text (id : RecordId) : String := id.space ++ ":" ++ id.base

def ofText? (text : String) : Option RecordId :=
  (Text.splitOnce ':' text.toList).map fun (space, base) =>
    ⟨String.ofList space, String.ofList base⟩

theorem text_of_ofText? {text : String} {id : RecordId} (h : ofText? text = some id) :
    id.text = text := by
  obtain ⟨⟨space, base⟩, hsplit, rfl⟩ := Option.map_eq_some_iff.1 h
  apply String.toList_injective
  rw [Text.splitOnce_eq_some hsplit]
  simp [RecordId.text, String.toList_append]

/-- Reads a name that may leave its space out. -/
def ofName (name : String) : RecordId := (ofText? name).getD ⟨defaultSpace, name⟩

theorem ofText?_eq_none_iff {text : String} : ofText? text = none ↔ ':' ∉ text.toList := by
  rw [ofText?, Option.map_eq_none_iff, Text.splitOnce_eq_none_iff]

/-- A full name is the text of what it names. -/
theorem text_ofName {name : String} (h : ':' ∈ name.toList) : (ofName name).text = name := by
  cases hid : ofText? name with
  | none => exact absurd h (ofText?_eq_none_iff.1 hid)
  | some id =>
    rw [ofName, hid]
    exact text_of_ofText? hid

theorem colon_mem_text (id : RecordId) : ':' ∈ id.text.toList := by
  simp [text, String.toList_append]

end RecordId

end BlockConvert
