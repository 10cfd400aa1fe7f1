set_option autoImplicit false

/-!
# JSON values

A value keeps the members of an object in document order, repeated keys included. A text with an
unpaired surrogate escape and a number beyond the range of doubles are well-formed but denote
nothing: they stand as `none` and are refused only where they are asked for.
-/

namespace BlockConvert

/-- A number: an integer of 64 bits, signed or not, or a double, whose value no record asks for. -/
inductive JsonNumber where
  | integer (value : Int)
  | double
deriving DecidableEq

inductive Json where
  | null
  | bool (value : Bool)
  | number (value : Option JsonNumber)
  | text (value : Option String)
  | array (items : List Json)
  | object (members : List (Option String × Json))
deriving Inhabited

namespace Json

mutual

def depth : Json → Nat
  | array items => depthItems items + 1
  | object members => depthMembers members + 1
  | _ => 0

def depthItems : List Json → Nat
  | [] => 0
  | j :: rest => max (depth j) (depthItems rest)

def depthMembers : List (Option String × Json) → Nat
  | [] => 0
  | (_, j) :: rest => max (depth j) (depthMembers rest)

end

mutual

/-- Every text and every number in the value denotes something. -/
def isSound : Json → Bool
  | null => true
  | bool _ => true
  | number n => n.isSome
  | text s => s.isSome
  | array items => soundItems items
  | object members => soundMembers members

def soundItems : List Json → Bool
  | [] => true
  | j :: rest => isSound j && soundItems rest

def soundMembers : List (Option String × Json) → Bool
  | [] => true
  | (k, j) :: rest => k.isSome && isSound j && soundMembers rest

end

theorem depthItems_eq (items : List Json) :
    depthItems items = (items.map depth).foldr max 0 := by
  induction items with
  | nil => rfl
  | cons j rest ih => rw [depthItems, ih]; rfl

theorem depthMembers_eq (ms : List (Option String × Json)) :
    depthMembers ms = (ms.map fun m => m.2.depth).foldr max 0 := by
  induction ms with
  | nil => rfl
  | cons m rest ih => rw [depthMembers, ih]; rfl

theorem soundItems_eq (items : List Json) : soundItems items = (items.map isSound).all id := by
  induction items with
  | nil => rfl
  | cons j rest ih => rw [soundItems, ih]; rfl

theorem soundMembers_eq (ms : List (Option String × Json)) :
    soundMembers ms = (ms.map fun m => m.1.isSome && m.2.isSound).all id := by
  induction ms with
  | nil => rfl
  | cons m rest ih => rw [soundMembers, ih]; rfl

def depthLimit : Nat := 127

def isWhole (enclosing : Nat) (j : Json) : Bool :=
  decide (enclosing + j.depth ≤ depthLimit) && j.isSound

end Json

end BlockConvert
