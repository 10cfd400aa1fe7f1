import BlockConvert.Interpreter.Calling
import BlockConvert.Interpreter.Painting

set_option autoImplicit false

/-!
# Running rules

The meaning of a rule list is an action, by recursion on the rules. A rule on the cases of a value
runs the rules of the case that fits. A walk runs the rules of its node and then visits the children
of the tag: each with the node for its key, or else with the default rules, or else it is carried.
-/

namespace BlockConvert.Rule

def carried (allowed : Dict (List Tag)) (b : Block) : List (String × Tag) :=
  allowed.entries.filterMap fun (key, values) =>
    (b.properties.get? key).bind fun v => if v ∈ values then some (key, v) else none

/-- Looks at the block at an offset and acts on it; a place without a block is skipped. -/
def onNeighbour (lookup : Lookup) (offset : Coords) (a : Action) : Action := fun f s =>
  let place := f.relative + offset
  match lookup place with
  | .error e => Action.notify (.partSkipped place (some e)) f s
  | .ok found =>
    match found.block with
    | none => Action.notify (.partSkipped place none) f s
    | some b => a (f.neighbour offset b (found.blockEntity.map fun e => e.tree.tag)) s

/-- Acts at the tag at a path, or without a path at the position of the walk or at the root. A path
that does not lead to a tag of the declared kind is reported, and nothing is done. -/
def atPath (path : Option Path) (a : Cursor → Action) : Action := fun f s =>
  match f.tree with
  | none => Action.needExtra f s
  | some tree =>
    match path with
    | none =>
      let c := f.cursor.getD ⟨[], tree⟩
      a c (f.positioned c) s
    | some p =>
      match tree.follow? p with
      | none => Action.notify (.pathMissing p) f s
      | some value =>
        match p.getLast?.map PathStep.kind with
        | some kind =>
          if value.kind = kind then a ⟨p, value⟩ (f.positioned ⟨p, value⟩) s
          else Action.notify (.pathMistyped p kind value.kind) f s
        | none => a ⟨p, value⟩ (f.positioned ⟨p, value⟩) s

def visitChildren (cursor : Cursor) (visit : PathKey → Cursor → Action) : Action :=
  Action.sequence <| cursor.value.children.map fun (key, child) =>
    let c : Cursor := ⟨cursor.path ++ [⟨key, child.kind⟩], child⟩
    fun f s => visit key c (f.positioned c) s

def carryUnaccounted (cursor : Cursor) : Action :=
  (Action.notify (.unaccounted cursor.path)).andThen (Action.carry .same)

/-- Carries a tag of another kind than expected; the root stays where it is. -/
def carryMistyped (cursor : Cursor) : Action :=
  if cursor.path.isEmpty then Action.skip else Action.carry .same

mutual

def run (r : Resources) : Rule → Action
  | .newBlock id => Action.update (·.named id .block)
  | .newEntity id => Action.update (·.named id .entity)
  | .newProperties ps => Action.update (·.withProperties ps.entries)
  | .carryProperties allowed =>
    Action.onBlock "carry_properties" fun b => Action.update (·.withProperties (carried allowed b))
  | .mapProperties cases => Action.onBlock "map_properties" (runPropertyCases r cases)
  | .mapBlockName cases =>
    Action.onBlock "map_block_name" fun b => (caseNamed r cases b.id.text).getD Action.skip
  | .multiblock parts =>
    Action.beyondRecord <|
      match r.lookup with
      | none => Action.needExtra
      | some lookup => runParts r lookup parts
  | .walk path node => Action.beyondRecord (atPath path (walkNode r node))
  | .newTags entries => Action.paint entries
  | .carryTag c => Action.carry c
  | .mapTag cases otherwise =>
    Action.beyondRecord <| Action.atCursor "map_nbt" fun cursor =>
      (optionalCase r cases cursor.value).getD (runAll r otherwise)
  | .script c => Action.call r.scripts c

def runAll (r : Resources) : List Rule → Action
  | [] => Action.skip
  | rule :: rest => (run r rule).andThen (runAll r rest)

def runPropertyCases (r : Resources) : List (String × List (Tag × List Rule)) → Block → Action
  | [], _ => Action.skip
  | (key, cases) :: rest, b =>
    ((b.properties.get? key).bind (caseFor r cases) |>.getD Action.skip).andThen
      (runPropertyCases r rest b)

def caseFor (r : Resources) : List (Tag × List Rule) → Tag → Option Action
  | [], _ => none
  | (t, rules) :: rest, value => if t = value then some (runAll r rules) else caseFor r rest value

def optionalCase (r : Resources) : Option (List (Tag × List Rule)) → Tag → Option Action
  | none, _ => none
  | some cases, value => caseFor r cases value

def caseNamed (r : Resources) : List (String × List Rule) → String → Option Action
  | [], _ => none
  | (n, rules) :: rest, name => if n = name then some (runAll r rules) else caseNamed r rest name

def runParts (r : Resources) (lookup : Lookup) : List Part → Action
  | [] => Action.skip
  | .mk offset rules :: rest =>
    (onNeighbour lookup offset (runAll r rules)).andThen (runParts r lookup rest)

def walkNode (r : Resources) : WalkNode → Cursor → Action
  | .mk kind rules keys indices childDefault selfDefault, cursor =>
    (runAll r rules).andThen <|
      if kind.all (· = cursor.value.kind) then
        visitChildren cursor fun key child =>
          let node := match key with
            | .key k => nodeFor r keys k
            | .index i => nodeFor r indices (toString i)
          match node with
          | some visit => visit child
          | none => (optionalRules r childDefault).getD (carryUnaccounted child)
      else (optionalRules r selfDefault).getD (carryMistyped cursor)

def nodeFor (r : Resources) : List (String × WalkNode) → String → Option (Cursor → Action)
  | [], _ => none
  | (k, node) :: rest, key => if k = key then some (walkNode r node) else nodeFor r rest key

def optionalRules (r : Resources) : Option (List Rule) → Option Action
  | none => none
  | some rules => some (runAll r rules)

end

end BlockConvert.Rule
