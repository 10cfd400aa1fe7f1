import BlockConvert.Proofs.Interpreter.Growth
import BlockConvert.Proofs.Rule.Standing

set_option autoImplicit false

/-!
# The steps of a run

A run of a rule list in a frame reaches the rules of the list in that frame, and the rules inside
them in the frames to which parts and walks lead. A tag that a walk carries without being told is a
step of its own. What every step keeps, apart from the rules inside it, the whole run keeps.
-/

namespace BlockConvert

namespace Cursor

def child (c : Cursor) (key : PathKey) (t : Tag) : Cursor := ⟨c.path ++ [⟨key, t.kind⟩], t⟩

end Cursor

namespace Rule

inductive Starts : Option Path → Frame → Cursor → Prop
  | current {f : Frame} {tree : Tag} (htree : f.tree = some tree) :
      Starts none f (f.cursor.getD ⟨[], tree⟩)
  | along {f : Frame} {tree value : Tag} {path : Path} (htree : f.tree = some tree)
      (hvalue : tree.follow? path = some value)
      (hkind : ∀ last, path.getLast? = some last → value.kind = last.kind) :
      Starts (some path) f ⟨path, value⟩

def carryOnly : List Rule := [.carryTag .same]

/-- The rule lists that a walk with a node runs, and the positions where it runs them. -/
inductive Walks : WalkNode → Cursor → List Rule → Cursor → Prop
  | own {kind : Option Kind} {rules : List Rule} {keys indices : List (String × WalkNode)}
      {childDefault selfDefault : Option (List Rule)} {c : Cursor} :
      Walks (.mk kind rules keys indices childDefault selfDefault) c rules c
  | mistyped {kind : Option Kind} {rules : List Rule} {keys indices : List (String × WalkNode)}
      {childDefault selfDefault : Option (List Rule)} {c : Cursor}
      (hkind : kind.all (· = c.value.kind) = false) (h : selfDefault.isSome ∨ c.path ≠ []) :
      Walks (.mk kind rules keys indices childDefault selfDefault) c (selfDefault.getD carryOnly) c
  | unaccounted {kind : Option Kind} {rules : List Rule} {keys indices : List (String × WalkNode)}
      {childDefault selfDefault : Option (List Rule)} {c : Cursor} {key : PathKey} {t : Tag}
      (hkind : kind.all (· = c.value.kind) = true) (hchild : (key, t) ∈ c.value.children)
      (hnode : childNode keys indices key = none) :
      Walks (.mk kind rules keys indices childDefault selfDefault) c (childDefault.getD carryOnly)
        (c.child key t)
  | deeper {kind : Option Kind} {rules rs : List Rule} {keys indices : List (String × WalkNode)}
      {childDefault selfDefault : Option (List Rule)} {c d : Cursor} {key : PathKey} {t : Tag}
      {node : WalkNode} (hkind : kind.all (· = c.value.kind) = true)
      (hchild : (key, t) ∈ c.value.children) (hnode : childNode keys indices key = some node)
      (h : Walks node (c.child key t) rs d) :
      Walks (.mk kind rules keys indices childDefault selfDefault) c rs d

/-- The rule lists that a rule runs in a frame, and the frames in which it runs them. -/
inductive Enters (r : Resources) : Rule → Frame → List Enclosure → List Rule → Frame → Prop
  | propertyCase {cases : List (String × List (Tag × List Rule))} {f : Frame} {b : Block}
      {key : String} {cs : List (Tag × List Rule)} {v : Tag} {rules : List Rule}
      (hrecord : f.record = .block b) (hcases : (key, cs) ∈ cases)
      (hvalue : b.properties.get? key = some v) (h : Table.get? cs v = some rules) :
      Enters r (.mapProperties cases) f [] rules f
  | nameCase {cases : List (String × List Rule)} {f : Frame} {b : Block} {rules : List Rule}
      (hrecord : f.record = .block b) (h : Table.get? cases b.id.text = some rules) :
      Enters r (.mapBlockName cases) f [] rules f
  | part {parts : List Part} {f : Frame} {lookup : Lookup} {offset : Coords} {rules : List Rule}
      {found : Found} {b : Block} (hlookup : r.lookup = some lookup)
      (hpart : .mk offset rules ∈ parts) (hfound : lookup (f.relative + offset) = .ok found)
      (hblock : found.block = some b) :
      Enters r (.multiblock parts) f [.part offset] rules
        (f.neighbour offset b (found.blockEntity.map fun e => e.tree.tag))
  | node {path : Option Path} {node : WalkNode} {f : Frame} {c d : Cursor} {rules : List Rule}
      (hstart : Starts path f c) (h : Walks node c rules d) :
      Enters r (.walk path node) f [.walk] rules (f.positioned d)
  | tagCase {cases : List (Tag × List Rule)} {otherwise : List Rule} {f : Frame} {c : Cursor}
      {rules : List Rule} (hcursor : f.cursor = some c)
      (h : Table.get? cases c.value = some rules) :
      Enters r (.mapTag (some cases) otherwise) f [] rules f
  | otherwise {cases : Option (List (Tag × List Rule))} {rules : List Rule} {f : Frame} {c : Cursor}
      (hcursor : f.cursor = some c)
      (h : (cases.bind fun cs => Table.get? cs c.value) = none) :
      Enters r (.mapTag cases rules) f [] rules f

/-- A run of the rule list in the frame reaches a rule, within the given enclosures, in a frame. -/
inductive Reaches (r : Resources) : List Rule → Frame → List Enclosure → Frame → Rule → Prop
  | here {rules : List Rule} {f : Frame} {rule : Rule} (h : rule ∈ rules) :
      Reaches r rules f [] f rule
  | inside {rules inner : List Rule} {f g h : Frame} {outer rule : Rule}
      {enclosed enclosing : List Enclosure} (houter : outer ∈ rules)
      (hinner : Enters r outer f enclosing inner g) (hreach : Reaches r inner g enclosed h rule) :
      Reaches r rules f (enclosed ++ enclosing) h rule

variable {r : Resources}

theorem Walks.holds {node : WalkNode} {c d : Cursor} {rules : List Rule}
    (h : Walks node c rules d) : node.Holds rules ∨ rules = carryOnly := by
  induction h with
  | own => exact .inl .own
  | @mistyped _ _ _ _ _ selfDefault _ _ _ =>
    cases selfDefault with
    | none => exact .inr rfl
    | some rs => exact .inl .selfDefault
  | @unaccounted _ _ _ _ childDefault _ _ _ _ _ _ _ =>
    cases childDefault with
    | none => exact .inr rfl
    | some rs => exact .inl .childDefault
  | deeper _ _ hnode _ ih =>
    refine ih.imp_left fun h => ?_
    rcases childNode_mem hnode with ⟨k, hk⟩ | ⟨i, hi⟩
    · exact .atKey hk h
    · exact .atIndex hi h

theorem Enters.opens {outer : Rule} {f g : Frame} {e : List Enclosure} {inner : List Rule}
    (h : Enters r outer f e inner g) : outer.Opens e inner ∨ e = [.walk] ∧ inner = carryOnly := by
  cases h with
  | propertyCase _ hcases _ h => exact .inl (.propertyCase hcases (Table.mem_of_get?_eq_some h))
  | nameCase _ h => exact .inl (.nameCase (Table.mem_of_get?_eq_some h))
  | part _ hpart _ _ => exact .inl (.part hpart)
  | node _ h => exact h.holds.imp .node fun hcarry => ⟨rfl, hcarry⟩
  | tagCase _ h => exact .inl (.tagCase (Table.mem_of_get?_eq_some h))
  | otherwise _ _ => exact .inl .otherwise

theorem not_reaches_nil {f g : Frame} {enclosing : List Enclosure} {rule : Rule} :
    ¬Reaches r [] f enclosing g rule := by
  intro h
  cases h with
  | here h => contradiction
  | inside houter _ _ => contradiction

theorem reaches_carryOnly {f g : Frame} {enclosing : List Enclosure} {rule : Rule}
    (h : Reaches r carryOnly f enclosing g rule) :
    enclosing = [] ∧ rule = .carryTag .same ∧ g = f := by
  cases h with
  | here h => exact ⟨rfl, List.mem_singleton.1 h, rfl⟩
  | inside houter hinner _ =>
    rw [List.mem_singleton.1 houter] at hinner
    cases hinner

/-- A run reaches the rules that stand in its list, and tags that a walk carries on its own. -/
theorem Reaches.stands {rules : List Rule} {f g : Frame} {enclosing : List Enclosure} {rule : Rule}
    (h : Reaches r rules f enclosing g rule) :
    Stands rules enclosing rule ∨ enclosing.head? = some .walk ∧ rule = .carryTag .same := by
  induction h with
  | here h => exact .inl (.here h)
  | inside houter hinner hreach ih =>
    rcases hinner.opens with hopens | ⟨rfl, rfl⟩
    · rcases ih with hstands | ⟨hwalk, hrule⟩
      · exact .inl (.inside houter hopens hstands)
      · exact .inr ⟨by rw [List.head?_append, hwalk]; rfl, hrule⟩
    · obtain ⟨rfl, hrule, -⟩ := reaches_carryOnly hreach
      exact .inr ⟨rfl, hrule⟩

end Rule

end BlockConvert
