import BlockConvert.Paint
import BlockConvert.Proofs.Table.Overwriting

set_option autoImplicit false

/-!
# An edit as a stroke on one child

An edit meets a tag at one key or index, opens a child of one kind there, and hands the child on to
the rest of its path. A compound, a list and an array each take a stroke in their own way; other
tags take none. At an index that no length goes with, a list takes the kind and no more. No edit
changes the kind of the tag that it is applied to.
-/

namespace BlockConvert

namespace PathKey

def Fits : PathKey → Prop
  | index i => i + 1 < UInt64.size
  | key _ => True

instance : (p : PathKey) → Decidable p.Fits
  | index _ => inferInstanceAs (Decidable (_ < _))
  | key _ => isTrue trivial

@[simp] theorem fits_key (k : String) : (key k).Fits := trivial

end PathKey

namespace Paint

variable {i length : Nat}

theorem lengthUpTo?_of_fits (h : (PathKey.index i).Fits) : lengthUpTo? i = some (i + 1) := if_pos h

theorem lengthUpTo?_of_not_fits (h : ¬(PathKey.index i).Fits) : lengthUpTo? i = none := if_neg h

end Paint

namespace Edit

def head (e : Edit) : PathKey :=
  match e.path with
  | [] => e.key
  | step :: _ => step.key

def wants (e : Edit) : Kind :=
  match e.path with
  | [] => e.value.kind
  | step :: _ => step.kind

/-- The edit as the child meets it. -/
def below (e : Edit) : Edit := { e with path := e.path.tail }

def isLeaf (e : Edit) : Bool := e.path.isEmpty

def first (e : Edit) : PathStep := ⟨e.head, e.wants⟩

/-- The way to the slot that the edit writes, with the kinds that it declares. -/
def target (e : Edit) : Path := e.path ++ [⟨e.key, e.value.kind⟩]

def onChild (e : Edit) (child : Tag) : Tag :=
  if e.isLeaf then e.value else (Paint.apply child e.below).tag

theorem onChild_leaf {e : Edit} (h : e.isLeaf = true) (child : Tag) : e.onChild child = e.value :=
  if_pos h

theorem onChild_below {e : Edit} (h : e.isLeaf = false) (child : Tag) :
    e.onChild child = (Paint.apply child e.below).tag := by
  simp [onChild, h]

def landingOn (e : Edit) (child : Tag) : Paint.Landing :=
  if e.isLeaf then .written else (Paint.apply child e.below).landing

theorem landingOn_leaf {e : Edit} (h : e.isLeaf = true) (child : Tag) :
    e.landingOn child = .written := if_pos h

theorem landingOn_below {e : Edit} (h : e.isLeaf = false) (child : Tag) :
    e.landingOn child = (Paint.apply child e.below).landing := by
  simp [landingOn, h]

theorem wants_leaf {e : Edit} (h : e.isLeaf = true) : e.wants = e.value.kind := by
  rw [wants, List.isEmpty_iff.1 h]

/-- The edit writes at the key or index, or goes on there. -/
def Hits (e : Edit) (p : PathKey) : Prop := e.head = p ∧ p.Fits

instance (e : Edit) (p : PathKey) : Decidable (e.Hits p) := inferInstanceAs (Decidable (_ ∧ _))

@[simp] theorem hits_key {e : Edit} {k : String} : e.Hits (.key k) ↔ e.head = .key k :=
  and_iff_left trivial

theorem hits_index {e : Edit} {i j : Nat} (h : e.head = .index i) :
    e.Hits (.index j) ↔ i = j ∧ e.head.Fits := by
  rw [Hits, h, PathKey.index.injEq]
  exact and_congr_right fun hij => by rw [hij]

def element? {α : Type} (read : Tag → Option α) (e : Edit) : Option (Nat × α) :=
  match e.path, e.key with
  | [], .index i => if i + 1 < UInt64.size then (read e.value).map fun v => (i, v) else none
  | _, _ => none

theorem target_leaf {e : Edit} (h : e.isLeaf = true) : e.target = [e.first] := by
  have hpath : e.path = [] := List.isEmpty_iff.1 h
  simp [target, first, head, wants, hpath]

theorem target_below {e : Edit} (h : e.isLeaf = false) :
    e.target = e.first :: e.below.target := by
  obtain ⟨name, kind, path, key, value⟩ := e
  cases path with
  | nil => contradiction
  | cons step rest => rfl

theorem element?_eq_some {α : Type} {read : Tag → Option α} {e : Edit} {i : Nat} {v : α}
    (h : e.element? read = some (i, v)) :
    e.isLeaf = true ∧ e.Hits (.index i) ∧ read e.value = some v := by
  obtain ⟨name, kind, path, key, value⟩ := e
  cases path with
  | cons step rest => cases h
  | nil =>
    cases key with
    | key k => cases h
    | index j =>
      obtain ⟨hfits, hread⟩ := Option.ite_none_right_eq_some.1 h
      obtain ⟨w, hread, heq⟩ := Option.map_eq_some_iff.1 hread
      cases heq
      exact ⟨rfl, ⟨rfl, hfits⟩, hread⟩

theorem length_below {e : Edit} {n : Nat} (hleaf : e.isLeaf = false) (h : e.path.length < n + 1) :
    e.below.path.length < n := by
  have hne : e.path ≠ [] := fun hnil => by simp [isLeaf, hnil] at hleaf
  have := List.length_pos_iff.2 hne
  have htail : e.below.path.length = e.path.length - 1 := List.length_tail
  omega

end Edit

namespace TypedList

/-- A list after an edit, which retypes it and, on the way to an index, pads it. -/
def stroke (l : TypedList) (e : Edit) : TypedList :=
  match e.head with
  | .index i =>
    if e.head.Fits then
      let opened := l.padTo (i + 1) e.wants
      ⟨opened.element, opened.items.set i (e.onChild (opened.items[i]?.getD (Tag.empty e.wants)))⟩
    else l.coerce e.wants
  | .key _ => l

theorem stroke_of_fits (l : TypedList) {e : Edit} {i : Nat} (hhead : e.head = .index i)
    (hfits : e.head.Fits) :
    l.stroke e = ⟨(l.padTo (i + 1) e.wants).element, (l.padTo (i + 1) e.wants).items.set i
      (e.onChild ((l.padTo (i + 1) e.wants).items[i]?.getD (Tag.empty e.wants)))⟩ := by
  simp only [stroke, hhead, if_pos (hhead ▸ hfits : (PathKey.index i).Fits)]

theorem stroke_of_not_fits (l : TypedList) {e : Edit} (hfits : ¬e.head.Fits) :
    l.stroke e = l.coerce e.wants := by
  cases hhead : e.head with
  | key k => exact absurd trivial (by rwa [hhead] at hfits)
  | index i => simp only [stroke, hhead, if_neg (hhead ▸ hfits : ¬(PathKey.index i).Fits)]

theorem stroke_of_key (l : TypedList) {e : Edit} {k : String} (hhead : e.head = .key k) :
    l.stroke e = l := by
  simp only [stroke, hhead]

end TypedList

namespace Paint

/-! ## Arrays -/

/-- The three forms of arrays, each with the form of its elements, how an element is read, and what
it is padded with. -/
inductive IsArray : {α : Type} → (List α → Tag) → (α → Tag) → (Tag → Option α) → α → Prop
  | byte : IsArray .byteArray .byte (fun | .byte v => some v | _ => none) 0
  | int : IsArray .intArray .int (fun | .int v => some v | _ => none) 0
  | long : IsArray .longArray .long (fun | .long v => some v | _ => none) 0

def writeAt {α : Type} (zero : α) (values : List α) (index : Nat) (value : α) : List α :=
  (values ++ List.replicate (index + 1 - values.length) zero).set index value

namespace IsArray

variable {α : Type} {array : List α → Tag} {make : α → Tag} {read : Tag → Option α} {zero : α}

theorem kind_array (h : IsArray array make read zero) (values others : List α) :
    (array values).kind = (array others).kind := by
  cases h <;> rfl

theorem leaf_index (h : IsArray array make read zero) (values : List α) (i : Nat) (t : Tag) :
    leaf (array values) (.index i) t =
      match read t with
      | some v => writeElement array zero values i v
      | none => ⟨array values, .dropped⟩ := by
  cases h <;> cases t <;> rfl

theorem leaf_key (h : IsArray array make read zero) (values : List α) (k : String) (t : Tag) :
    leaf (array values) (.key k) t = ⟨array values, .dropped⟩ := by
  cases h <;> rfl

theorem write_step (h : IsArray array make read zero) (values : List α) (step : PathStep)
    (rest : Path) (key : PathKey) (t : Tag) :
    write key t (step :: rest) (array values) = ⟨array values, .dropped⟩ := by
  cases h <;> rfl

end IsArray

theorem lt_length_padded {α : Type} (zero : α) (values : List α) (index : Nat) :
    index < (values ++ List.replicate (index + 1 - values.length) zero).length := by
  rw [List.length_append, List.length_replicate]
  omega

theorem writeElement_of_fits {α : Type} {i : Nat} (h : (PathKey.index i).Fits)
    (array : List α → Tag) (zero : α) (values : List α) (v : α) :
    writeElement array zero values i v = ⟨array (writeAt zero values i v), .written⟩ := by
  simp only [writeElement, lengthUpTo?_of_fits h, if_pos (lt_length_padded zero values i), writeAt]

theorem writeElement_of_not_fits {α : Type} {i : Nat} (h : ¬(PathKey.index i).Fits)
    (array : List α → Tag) (zero : α) (values : List α) (v : α) :
    writeElement array zero values i v = ⟨array values, .overflow⟩ := by
  simp only [writeElement, lengthUpTo?_of_not_fits h]

theorem IsArray.apply_eq {α : Type} {array : List α → Tag} {make : α → Tag}
    {read : Tag → Option α} {zero : α} (h : IsArray array make read zero) (values : List α)
    (e : Edit) :
    (apply (array values) e).tag = array (match e.element? read with
        | some w => writeAt zero values w.1 w.2
        | none => values) ∧
      (apply (array values) e).landing =
        if (e.element? read).isSome then .written
        else if e.isLeaf ∧ ¬e.head.Fits ∧ (read e.value).isSome then .overflow else .dropped := by
  obtain ⟨name, kind, path, key, value⟩ := e
  cases path with
  | cons step rest => simp [apply, h.write_step, Edit.element?, Edit.isLeaf]
  | nil =>
    cases key with
    | key k => simp [apply, write, h.leaf_key, Edit.element?, Edit.head]
    | index i =>
      simp only [apply, write, h.leaf_index, Edit.element?, Edit.isLeaf, Edit.head]
      cases read value with
      | none => simp
      | some v =>
        by_cases hfits : (PathKey.index i).Fits
        · have hlt : i + 1 < UInt64.size := hfits
          simp [writeElement_of_fits hfits, hlt]
        · have hlt : ¬i + 1 < UInt64.size := hfits
          simp [writeElement_of_not_fits hfits, hlt, hfits]

/-! ## Tags of all forms -/

def barren : List Kind := [.byte, .short, .int, .long, .float, .double, .string]

/-- The forms that a tag takes an edit in. -/
@[elab_as_elim]
theorem formCases {motive : Tag → Prop} (barren : ∀ t : Tag, t.kind ∈ barren → motive t)
    (compound : ∀ entries, motive (.compound entries)) (list : ∀ l : TypedList, motive l.toTag)
    (array : ∀ {α : Type} {array : List α → Tag} {make : α → Tag} {read : Tag → Option α}
      {zero : α}, IsArray array make read zero → ∀ values, motive (array values)) (t : Tag) :
    motive t := by
  cases t with
  | compound entries => exact compound entries
  | list element items => exact list ⟨element, items⟩
  | byteArray values => exact array .byte values
  | intArray values => exact array .int values
  | longArray values => exact array .long values
  | _ => exact barren _ (by simp [Paint.barren, Tag.kind])

theorem apply_barren {t : Tag} (h : t.kind ∈ barren) (e : Edit) : (apply t e).tag = t := by
  obtain ⟨name, kind, path, key, value⟩ := e
  cases t <;> first
    | (cases path <;> rfl)
    | simp [barren, Tag.kind] at h

def strokeEntries (entries : List (String × Tag)) (e : Edit) : List (String × Tag) :=
  match e.head with
  | .index _ => entries
  | .key k => Table.insert k (e.onChild (openChild (Table.get? entries k) e.wants)) entries

theorem apply_compound (entries : List (String × Tag)) (e : Edit) :
    (apply (.compound entries) e).tag = .compound (strokeEntries entries e) := by
  obtain ⟨name, kind, path, key, value⟩ := e
  cases path with
  | nil => cases key <;> rfl
  | cons step rest =>
    obtain ⟨key, expected⟩ := step
    cases key <;> rfl

theorem apply_list_of_fits {i : Nat} (l : TypedList) {e : Edit} (hhead : e.head = .index i)
    (hfits : e.head.Fits) :
    apply l.toTag e = ⟨(l.stroke e).toTag,
      e.landingOn ((l.padTo (i + 1) e.wants).items[i]?.getD (Tag.empty e.wants))⟩ := by
  rw [l.stroke_of_fits hhead hfits]
  obtain ⟨name, kind, path, key, value⟩ := e
  obtain ⟨element, items⟩ := l
  cases path with
  | nil =>
    obtain rfl : key = .index i := hhead
    have hset := TypedList.set?_padTo ⟨element, items⟩ i value
    simp only [apply, write, TypedList.toTag, leaf, lengthUpTo?_of_fits hfits, hset]
    rfl
  | cons step rest =>
    obtain ⟨stepKey, expected⟩ := step
    obtain rfl : stepKey = .index i := hhead
    have hlt := TypedList.lt_length_padTo ⟨element, items⟩ i expected
    have hchild := List.getElem?_eq_getElem hlt
    simp only [apply, write, TypedList.toTag, lengthUpTo?_of_fits hfits, Edit.wants, hchild,
      Option.getD_some]
    rfl

theorem apply_list_of_not_fits (l : TypedList) {e : Edit} (hfits : ¬e.head.Fits) :
    apply l.toTag e = ⟨(l.stroke e).toTag, .overflow⟩ := by
  rw [l.stroke_of_not_fits hfits]
  obtain ⟨name, kind, path, key, value⟩ := e
  obtain ⟨element, items⟩ := l
  cases path with
  | nil =>
    cases key with
    | key k => exact absurd trivial hfits
    | index i =>
      simp only [apply, write, TypedList.toTag, leaf, lengthUpTo?_of_not_fits hfits]
      rfl
  | cons step rest =>
    obtain ⟨stepKey, expected⟩ := step
    cases stepKey with
    | key k => exact absurd trivial hfits
    | index i =>
      simp only [apply, write, TypedList.toTag, lengthUpTo?_of_not_fits hfits]
      rfl

theorem apply_list_of_key {k : String} (l : TypedList) {e : Edit} (hhead : e.head = .key k) :
    apply l.toTag e = ⟨(l.stroke e).toTag, .dropped⟩ := by
  rw [l.stroke_of_key hhead]
  obtain ⟨name, kind, path, key, value⟩ := e
  cases path with
  | nil =>
    obtain rfl : key = .key k := hhead
    rfl
  | cons step rest =>
    obtain ⟨stepKey, expected⟩ := step
    obtain rfl : stepKey = .key k := hhead
    rfl

theorem apply_list (l : TypedList) (e : Edit) : (apply l.toTag e).tag = (l.stroke e).toTag := by
  cases hhead : e.head with
  | key k => rw [apply_list_of_key l hhead]
  | index i =>
    by_cases hfits : e.head.Fits
    · rw [apply_list_of_fits l hhead hfits]
    · rw [apply_list_of_not_fits l hfits]

theorem kind_apply (t : Tag) (e : Edit) : (apply t e).tag.kind = t.kind := by
  cases t using formCases with
  | barren t h => rw [apply_barren h]
  | compound entries => rw [apply_compound]; rfl
  | list l => rw [apply_list]; rfl
  | array h values =>
    rw [(h.apply_eq values e).1]
    exact h.kind_array _ values

end Paint

theorem Edit.kind_onChild (e : Edit) {child : Tag} (h : child.kind = e.wants) :
    (e.onChild child).kind = e.wants := by
  cases hleaf : e.isLeaf with
  | true => rw [onChild_leaf hleaf, wants_leaf hleaf]
  | false => rw [onChild_below hleaf, Paint.kind_apply, h]

end BlockConvert
