import BlockConvert.Rule

set_option autoImplicit false

/-!
# Where a rule stands

A rule stands in a rule list at the top, or inside other rules: in a case, in a part of a structure
of several blocks, or in a node of a walk. Parts and walks change what rules look at, so a rule is
known with the parts and walks that enclose it, the innermost first.
-/

namespace BlockConvert

inductive Enclosure where
  | part (offset : Coords)
  | walk
deriving DecidableEq

/-- The rule lists of a node, and of the nodes below it. -/
inductive WalkNode.Holds : WalkNode → List Rule → Prop
  | own {kind : Option Kind} {rules : List Rule} {keys indices : List (String × WalkNode)}
      {childDefault selfDefault : Option (List Rule)} :
      Holds (.mk kind rules keys indices childDefault selfDefault) rules
  | childDefault {kind : Option Kind} {rules rs : List Rule}
      {keys indices : List (String × WalkNode)} {selfDefault : Option (List Rule)} :
      Holds (.mk kind rules keys indices (some rs) selfDefault) rs
  | selfDefault {kind : Option Kind} {rules rs : List Rule}
      {keys indices : List (String × WalkNode)} {childDefault : Option (List Rule)} :
      Holds (.mk kind rules keys indices childDefault (some rs)) rs
  | atKey {kind : Option Kind} {rules rs : List Rule} {keys indices : List (String × WalkNode)}
      {childDefault selfDefault : Option (List Rule)} {key : String} {node : WalkNode}
      (hnode : (key, node) ∈ keys) (h : node.Holds rs) :
      Holds (.mk kind rules keys indices childDefault selfDefault) rs
  | atIndex {kind : Option Kind} {rules rs : List Rule} {keys indices : List (String × WalkNode)}
      {childDefault selfDefault : Option (List Rule)} {index : String} {node : WalkNode}
      (hnode : (index, node) ∈ indices) (h : node.Holds rs) :
      Holds (.mk kind rules keys indices childDefault selfDefault) rs

namespace Rule

/-- The rule lists inside a rule, with what encloses them there. -/
inductive Opens : Rule → List Enclosure → List Rule → Prop
  | propertyCase {cases : List (String × List (Tag × List Rule))} {key : String}
      {cs : List (Tag × List Rule)} {t : Tag} {rules : List Rule} (hcases : (key, cs) ∈ cases)
      (h : (t, rules) ∈ cs) : Opens (.mapProperties cases) [] rules
  | nameCase {cases : List (String × List Rule)} {name : String} {rules : List Rule}
      (h : (name, rules) ∈ cases) : Opens (.mapBlockName cases) [] rules
  | part {parts : List Part} {offset : Coords} {rules : List Rule} (h : .mk offset rules ∈ parts) :
      Opens (.multiblock parts) [.part offset] rules
  | node {path : Option Path} {node : WalkNode} {rules : List Rule} (h : node.Holds rules) :
      Opens (.walk path node) [.walk] rules
  | tagCase {cases : List (Tag × List Rule)} {otherwise : List Rule} {t : Tag} {rules : List Rule}
      (h : (t, rules) ∈ cases) : Opens (.mapTag (some cases) otherwise) [] rules
  | otherwise {cases : Option (List (Tag × List Rule))} {rules : List Rule} :
      Opens (.mapTag cases rules) [] rules

/-- The rule stands in the rule list, at any depth, within the given enclosures. -/
inductive Stands : List Rule → List Enclosure → Rule → Prop
  | here {rules : List Rule} {rule : Rule} (h : rule ∈ rules) : Stands rules [] rule
  | inside {rules inner : List Rule} {outer rule : Rule} {enclosed enclosing : List Enclosure}
      (houter : outer ∈ rules) (hinner : Opens outer enclosing inner)
      (h : Stands inner enclosed rule) : Stands rules (enclosed ++ enclosing) rule

/-- Every rule that stands in the rule list fits the place where it stands. -/
def Throughout (fits : List Enclosure → Rule → Prop) (rules : List Rule) : Prop :=
  ∀ enclosing rule, Stands rules enclosing rule → fits enclosing rule

/-- The rule list calls no script, at any depth. -/
def ScriptFree (rules : List Rule) : Prop := Throughout (fun _ rule => ∀ c, rule ≠ .script c) rules

variable {fits : List Enclosure → Rule → Prop}

theorem throughout_nil : Throughout fits [] := by
  intro enclosing rule h
  cases h with
  | here h => simp at h
  | inside houter _ _ => simp at houter

theorem throughout_cons {rule : Rule} {rules : List Rule} (hrule : fits [] rule)
    (hinner : ∀ e inner, rule.Opens e inner → Throughout (fun enc => fits (enc ++ e)) inner)
    (hrest : Throughout fits rules) : Throughout fits (rule :: rules) := by
  intro enclosing rule' h
  cases h with
  | here h =>
    rcases List.mem_cons.1 h with rfl | hmem
    · exact hrule
    · exact hrest [] rule' (.here hmem)
  | inside houter hopens h =>
    rcases List.mem_cons.1 houter with rfl | hmem
    · exact hinner _ _ hopens _ rule' h
    · exact hrest _ rule' (.inside hmem hopens h)

theorem Throughout.here {rules : List Rule} {rule : Rule} (h : Throughout fits rules)
    (hrule : rule ∈ rules) : fits [] rule := h [] rule (.here hrule)

/-- What holds throughout a list holds throughout the lists inside its rules. -/
theorem Throughout.inside {rules inner : List Rule} {outer : Rule} {enclosing : List Enclosure}
    (h : Throughout fits rules) (houter : outer ∈ rules) (hinner : outer.Opens enclosing inner) :
    Throughout (fun e => fits (e ++ enclosing)) inner :=
  fun _ rule hstands => h _ rule (.inside houter hinner hstands)

theorem Throughout.single {rules : List Rule} {rule : Rule} (h : Throughout fits rules)
    (hrule : rule ∈ rules) : Throughout fits [rule] := by
  refine throughout_cons (h.here hrule) (fun e inner hopens => ?_) throughout_nil
  exact h.inside hrule hopens

end Rule

end BlockConvert
