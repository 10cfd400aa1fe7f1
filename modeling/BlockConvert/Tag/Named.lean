import BlockConvert.Tag.Path

set_option autoImplicit false

/-!
# Named tags

A root tag together with its name, as a block entity or an entity holds it.
-/

namespace BlockConvert

structure NamedTag where
  name : String
  tag : Tag
deriving DecidableEq

namespace NamedTag

def empty : NamedTag := ⟨"", .compound []⟩

def lookup? (n : NamedTag) (name : String) (kind : Kind) (path : Path) : Option Tag :=
  if n.name = name ∧ n.tag.kind = kind then n.tag.follow? path else none

end NamedTag

end BlockConvert
