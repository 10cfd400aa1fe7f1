import BlockConvert.Notice

set_option autoImplicit false

/-!
# Numeric identifiers

Names and numbers that are bound to each other while the program runs. A later binding of a name or
a number replaces the earlier one in that direction only.
-/

namespace BlockConvert

structure NumericIds where
  names : List (Int32 × String)
  numbers : List (String × Int32)

namespace NumericIds

def empty : NumericIds := ⟨[], []⟩

def name? (r : NumericIds) (id : Int32) : Option String := r.names.lookup id

def number? (r : NumericIds) (name : String) : Option Int32 := r.numbers.lookup name

def rebind {κ α : Type} [BEq κ] (key : κ) (value : α) (bindings : List (κ × α)) : List (κ × α) :=
  (key, value) :: bindings.filter fun b => b.1 != key

def register (r : NumericIds) (name : String) (id : Int32) : NumericIds :=
  ⟨rebind id name r.names, rebind name id r.numbers⟩

def size (r : NumericIds) : Nat := r.numbers.length

end NumericIds

end BlockConvert
