import BlockConvert.Interpreter

set_option autoImplicit false

/-!
# Runs as sequences of actions

The functions that run lists of rules, cases, parts and nodes are look-ups in tables and sequences
of actions. With these equations a property of runs needs no recursion of its own over the lists.
-/

namespace BlockConvert

namespace Part

def offset : Part → Coords
  | .mk offset _ => offset

def rules : Part → List Rule
  | .mk _ rules => rules

end Part

namespace Rule

variable (r : Resources)

theorem runAll_eq_sequence (rules : List Rule) :
    runAll r rules = Action.sequence (rules.map (run r)) := by
  induction rules with
  | nil => rfl
  | cons rule rest ih => rw [runAll, ih, List.map_cons, Action.sequence]

theorem caseFor_eq_get (cases : List (Tag × List Rule)) (value : Tag) :
    caseFor r cases value = (Table.get? cases value).map (runAll r) := by
  induction cases with
  | nil => rfl
  | cons c rest ih =>
    obtain ⟨t, rules⟩ := c
    rw [caseFor, Table.get?_cons, ih]
    split <;> rfl

theorem caseNamed_eq_get (cases : List (String × List Rule)) (name : String) :
    caseNamed r cases name = (Table.get? cases name).map (runAll r) := by
  induction cases with
  | nil => rfl
  | cons c rest ih =>
    obtain ⟨n, rules⟩ := c
    rw [caseNamed, Table.get?_cons, ih]
    split <;> rfl

theorem nodeFor_eq_get (nodes : List (String × WalkNode)) (key : String) :
    nodeFor r nodes key = (Table.get? nodes key).map (walkNode r) := by
  induction nodes with
  | nil => rfl
  | cons n rest ih =>
    obtain ⟨k, node⟩ := n
    rw [nodeFor, Table.get?_cons, ih]
    split <;> rfl

theorem optionalCase_eq_get (cases : Option (List (Tag × List Rule))) (value : Tag) :
    optionalCase r cases value = cases.bind fun cs => (Table.get? cs value).map (runAll r) := by
  cases cases with
  | none => rfl
  | some cs => exact caseFor_eq_get r cs value

theorem optionalRules_eq_map (rules : Option (List Rule)) :
    optionalRules r rules = rules.map (runAll r) := by
  cases rules <;> rfl

def casesOf (b : Block) (key : String) (cases : List (Tag × List Rule)) : List Rule :=
  ((b.properties.get? key).bind (Table.get? cases)).getD []

theorem runPropertyCases_eq_sequence (cases : List (String × List (Tag × List Rule))) (b : Block) :
    runPropertyCases r cases b =
      Action.sequence (cases.map fun e => runAll r (casesOf b e.1 e.2)) := by
  induction cases with
  | nil => rfl
  | cons c rest ih =>
    obtain ⟨key, cs⟩ := c
    rw [runPropertyCases, ih, List.map_cons, Action.sequence]
    congr 1
    unfold casesOf
    cases b.properties.get? key with
    | none => rfl
    | some v =>
      simp only [Option.bind_some, caseFor_eq_get]
      cases Table.get? cs v <;> rfl

theorem runParts_eq_sequence (lookup : Lookup) (parts : List Part) :
    runParts r lookup parts =
      Action.sequence (parts.map fun p => onNeighbour lookup p.offset (runAll r p.rules)) := by
  induction parts with
  | nil => rfl
  | cons p rest ih =>
    obtain ⟨offset, rules⟩ := p
    rw [runParts, ih]
    rfl

def childNode (keys indices : List (String × WalkNode)) : PathKey → Option WalkNode
  | .key k => Table.get? keys k
  | .index i => Table.get? indices (toString i)

theorem childNode_mem {keys indices : List (String × WalkNode)} {key : PathKey} {n : WalkNode}
    (h : childNode keys indices key = some n) :
    (∃ k, (k, n) ∈ keys) ∨ ∃ i, (i, n) ∈ indices := by
  cases key with
  | key k => exact .inl ⟨k, Table.mem_of_get?_eq_some h⟩
  | index i => exact .inr ⟨toString i, Table.mem_of_get?_eq_some h⟩

def visitChild (keys indices : List (String × WalkNode)) (childDefault : Option (List Rule))
    (key : PathKey) (child : Cursor) : Action :=
  match childNode keys indices key with
  | some n => walkNode r n child
  | none => (childDefault.map (runAll r)).getD (carryUnaccounted child)

theorem walkNode_eq_visitChild (kind : Option Kind) (rules : List Rule)
    (keys indices : List (String × WalkNode)) (childDefault selfDefault : Option (List Rule))
    (cursor : Cursor) :
    walkNode r (.mk kind rules keys indices childDefault selfDefault) cursor =
      (runAll r rules).andThen
        (if kind.all (· = cursor.value.kind) then
          visitChildren cursor (visitChild r keys indices childDefault)
        else (selfDefault.map (runAll r)).getD (carryMistyped cursor)) := by
  rw [walkNode, optionalRules_eq_map, optionalRules_eq_map]
  congr 2
  congr 1
  funext key child
  unfold visitChild childNode
  cases key with
  | key k =>
    simp only [nodeFor_eq_get]
    cases Table.get? keys k <;> rfl
  | index i =>
    simp only [nodeFor_eq_get]
    cases Table.get? indices (toString i) <;> rfl

end Rule

end BlockConvert
