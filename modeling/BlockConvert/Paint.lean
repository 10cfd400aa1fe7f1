import BlockConvert.Tag.Named

set_option autoImplicit false

/-!
# Painting trees

An edit writes a tag under a key or an index at the end of a path. On the way, what is missing or of
another kind than the path says becomes an empty tag of that kind, and lists are retyped and padded.
Where the path meets a tag that has no such child the edit is dropped; what it opened before stays.

The length to which a list or an array is padded is a word of 64 bits. The greatest index has no
length that goes with it: the edit overflows, and whoever checks the sum stops there.
-/

namespace BlockConvert

/-- An instruction to write `value` under `key` at `path` in the tree of a given name and kind. -/
structure Edit where
  rootName : String
  rootKind : Kind
  path : Path
  key : PathKey
  value : Tag
deriving DecidableEq

namespace Edit

def new (path : Path) (key : PathKey) (value : Tag) : Edit := ⟨"", .compound, path, key, value⟩

def isFor (e : Edit) (name : String) (kind : Kind) : Bool :=
  decide (e.rootName = name ∧ e.rootKind = kind)

end Edit

namespace Paint

/-- What became of a write: it took place, it was dropped for want of a container, it came to an
index that no length goes with, or a list or an array refused it, which never happens once that is
padded. -/
inductive Landing where
  | written
  | dropped
  | overflow
  | refused
deriving DecidableEq

structure Painted where
  tag : Tag
  landing : Landing
deriving DecidableEq

/-- The length of what ends with the index, if a word holds it. -/
def lengthUpTo? (index : Nat) : Option Nat :=
  if index + 1 < UInt64.size then some (index + 1) else none

def writeElement {α : Type} (array : List α → Tag) (zero : α) (values : List α) (index : Nat)
    (value : α) : Painted :=
  match lengthUpTo? index with
  | none => ⟨array values, .overflow⟩
  | some length =>
    let padded := values ++ List.replicate (length - values.length) zero
    if index < padded.length then ⟨array (padded.set index value), .written⟩
    else ⟨array padded, .refused⟩

/-- A child of the given kind: the child that is there, or else an empty one. -/
def openChild (child : Option Tag) (kind : Kind) : Tag :=
  (child.filter fun t => t.kind == kind).getD (Tag.empty kind)

def leaf (node : Tag) (key : PathKey) (value : Tag) : Painted :=
  match node, key, value with
  | .compound entries, .key k, v => ⟨.compound (Table.insert k v entries), .written⟩
  | .list element items, .index i, v =>
    let l : TypedList := ⟨element, items⟩
    match lengthUpTo? i with
    -- the kind is there before the length is
    | none => ⟨(l.coerce v.kind).toTag, .overflow⟩
    | some length =>
      let opened := l.padTo length v.kind
      match opened.set? i v with
      | some l => ⟨l.toTag, .written⟩
      | none => ⟨opened.toTag, .refused⟩
  | .byteArray vs, .index i, .byte v => writeElement .byteArray 0 vs i v
  | .intArray vs, .index i, .int v => writeElement .intArray 0 vs i v
  | .longArray vs, .index i, .long v => writeElement .longArray 0 vs i v
  | n, _, _ => ⟨n, .dropped⟩

def write (key : PathKey) (value : Tag) : Path → Tag → Painted
  | [], node => leaf node key value
  | step :: rest, node =>
    match node, step.key with
    | .compound entries, .key k =>
      let p := write key value rest (openChild (Table.get? entries k) step.kind)
      ⟨.compound (Table.insert k p.tag entries), p.landing⟩
    | .list element items, .index i =>
      let l : TypedList := ⟨element, items⟩
      match lengthUpTo? i with
      | none => ⟨(l.coerce step.kind).toTag, .overflow⟩
      | some length =>
        let opened := l.padTo length step.kind
        match opened.items[i]? with
        | some child =>
          let p := write key value rest child
          ⟨.list opened.element (opened.items.set i p.tag), p.landing⟩
        | none => ⟨opened.toTag, .refused⟩
    | n, _ => ⟨n, .dropped⟩

def apply (root : Tag) (e : Edit) : Painted := write e.key e.value e.path root

/-- Applies edits one after another; also gives what became of each. -/
def applyAll (root : Tag) : List Edit → Tag × List (Edit × Landing)
  | [] => (root, [])
  | e :: rest =>
    let p := apply root e
    let (tag, landed) := applyAll p.tag rest
    (tag, (e, p.landing) :: landed)

structure Painting where
  tree : NamedTag
  landed : List (Edit × Landing)
deriving DecidableEq

namespace Painting

def lost (p : Painting) : List Edit := (p.landed.filter (·.2 ≠ .written)).map Prod.fst

def finishes (p : Painting) : Bool := p.landed.all fun l => l.2 = .written || l.2 = .dropped

end Painting

/-- Paints the edits for a tree of the given name and kind, over a template or an empty tag. -/
def build (name : String) (kind : Kind) (edits : List Edit) (template : Option Tag) : Painting :=
  let (tag, landed) := applyAll (template.getD (Tag.empty kind)) (edits.filter (·.isFor name kind))
  ⟨⟨name, tag⟩, landed⟩

/-- As `build`, but stops where an edit overflows or is refused. -/
def build? (name : String) (kind : Kind) (edits : List Edit) (template : Option Tag) :
    Option Painting :=
  let p := build name kind edits template
  if p.finishes then some p else none

end Paint

end BlockConvert
