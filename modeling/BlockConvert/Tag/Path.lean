import BlockConvert.Tag.TypedList

set_option autoImplicit false

/-!
# Paths into a tag

A path is a list of steps, each with the key or index of a child and the kind the child is expected
to have. Following a path looks at keys and indices only. An element of an array is a tag of its own
and has no children, so an array index ends a path.
-/

namespace BlockConvert

inductive PathKey where
  | index (index : Nat)
  | key (key : String)
deriving DecidableEq

structure PathStep where
  key : PathKey
  kind : Kind
deriving DecidableEq

abbrev Path := List PathStep

namespace PathKey

def text : PathKey → String
  | index i => toString i
  | key k => k

end PathKey

namespace PathStep

def atKey (key : String) (kind : Kind) : PathStep := ⟨.key key, kind⟩

def atIndex (index : Nat) (kind : Kind) : PathStep := ⟨.index index, kind⟩

def describe (s : PathStep) : String := s.key.text ++ "(" ++ s.kind.name ++ ")"

end PathStep

namespace Path

def describe (p : Path) : String :=
  if p.isEmpty then "<root>" else "/".intercalate (p.map PathStep.describe)

end Path

namespace Tag

def children : Tag → List (PathKey × Tag)
  | compound entries => entries.map fun e => (.key e.1, e.2)
  | list _ items => items.zipIdx.map fun e => (.index e.2, e.1)
  | byteArray vs => vs.zipIdx.map fun e => (.index e.2, byte e.1)
  | intArray vs => vs.zipIdx.map fun e => (.index e.2, int e.1)
  | longArray vs => vs.zipIdx.map fun e => (.index e.2, long e.1)
  | _ => []

def at? : Tag → PathKey → Option Tag
  | compound entries, .key k => Table.get? entries k
  | list _ items, .index i => items[i]?
  | byteArray vs, .index i => vs[i]?.map byte
  | intArray vs, .index i => vs[i]?.map int
  | longArray vs, .index i => vs[i]?.map long
  | _, _ => none

def follow? (t : Tag) : Path → Option Tag
  | [] => some t
  | step :: rest => (t.at? step.key).bind fun child => follow? child rest

end Tag

end BlockConvert
