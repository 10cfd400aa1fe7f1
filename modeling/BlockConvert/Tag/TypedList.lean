import BlockConvert.Tag

set_option autoImplicit false

/-!
# Typed lists

A list of tags of one kind. An empty list may have no element kind yet; the first push gives it one.
A push or a write of another kind, or beyond the end, is refused. `coerce` and `padTo` change the
element kind on purpose: elements of another kind become empty values of the new kind.
-/

namespace BlockConvert

structure TypedList where
  element : Option Kind
  items : List Tag
deriving DecidableEq

namespace TypedList

def nil : TypedList := ⟨none, []⟩

def ofKind (k : Kind) : TypedList := ⟨some k, []⟩

def ofItems? (items : List Tag) : Option TypedList :=
  match items with
  | [] => some nil
  | t :: _ => if items.all fun u => u.kind == t.kind then some ⟨some t.kind, items⟩ else none

def toTag (l : TypedList) : Tag := .list l.element l.items

def get? (l : TypedList) (index : Nat) : Option Tag := l.items[index]?

def push? (l : TypedList) (t : Tag) : Option TypedList :=
  if l.items.isEmpty ∨ l.element = some t.kind then some ⟨some t.kind, l.items ++ [t]⟩ else none

def set? (l : TypedList) (index : Nat) (t : Tag) : Option TypedList :=
  if l.element = some t.kind ∧ index < l.items.length then
    some ⟨l.element, l.items.set index t⟩
  else none

def coerce (l : TypedList) (k : Kind) : TypedList :=
  if l.element = some k then l else ⟨some k, l.items.map fun _ => Tag.empty k⟩

def padTo (l : TypedList) (length : Nat) (k : Kind) : TypedList :=
  let c := l.coerce k
  ⟨c.element, c.items ++ List.replicate (length - c.items.length) (Tag.empty k)⟩

/-- Every element has the element kind, and a list with elements has one. -/
def Homogeneous (l : TypedList) : Prop :=
  (∀ t ∈ l.items, some t.kind = l.element) ∧ (l.items ≠ [] → l.element.isSome)

theorem coerce_element (l : TypedList) (k : Kind) : (l.coerce k).element = some k := by
  unfold coerce
  split
  · assumption
  · rfl

theorem coerce_length (l : TypedList) (k : Kind) :
    (l.coerce k).items.length = l.items.length := by
  unfold coerce
  split <;> simp

theorem padTo_element (l : TypedList) (length : Nat) (k : Kind) :
    (l.padTo length k).element = some k := coerce_element l k

theorem padTo_length (l : TypedList) (length : Nat) (k : Kind) :
    (l.padTo length k).items.length = max l.items.length length := by
  simp only [padTo, List.length_append, List.length_replicate, coerce_length]
  omega

theorem lt_length_padTo (l : TypedList) (i : Nat) (k : Kind) :
    i < (l.padTo (i + 1) k).items.length := by
  rw [padTo_length]
  omega

theorem set?_padTo (l : TypedList) (i : Nat) (t : Tag) :
    (l.padTo (i + 1) t.kind).set? i t =
      some ⟨(l.padTo (i + 1) t.kind).element, (l.padTo (i + 1) t.kind).items.set i t⟩ :=
  if_pos ⟨padTo_element l (i + 1) t.kind, lt_length_padTo l i t.kind⟩

/-- A list of the kind that is long enough is not changed by being opened. -/
theorem padTo_eq_self {l : TypedList} {length : Nat} {k : Kind} (helement : l.element = some k)
    (hlength : length ≤ l.items.length) : l.padTo length k = l := by
  obtain ⟨element, items⟩ := l
  have hnone : length - items.length = 0 := Nat.sub_eq_zero_of_le hlength
  simp only [padTo, coerce, if_pos helement, hnone, List.replicate_zero, List.append_nil]

end TypedList

end BlockConvert
