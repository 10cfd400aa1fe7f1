import BlockConvert.Rule

set_option autoImplicit false

/-!
# Induction over rules

Rules nest in cases, parts and nodes. A property that passes from all rules and nodes directly
inside one to the one itself holds of every rule and every node.
-/

namespace BlockConvert.Rule

/-- Passes to a rule or a node from all that stands directly inside it: the cases of a simultaneous
induction over rules and the nodes of walks. -/
structure Hereditary (P : Rule → Prop) (N : WalkNode → Prop) : Prop where
  newBlock (id : String) : P (.newBlock id)
  newEntity (id : String) : P (.newEntity id)
  newProperties (ps : Dict Tag) : P (.newProperties ps)
  carryProperties (allowed : Dict (List Tag)) : P (.carryProperties allowed)
  mapProperties (cases : List (String × List (Tag × List Rule)))
    (inner : ∀ key cs, (key, cs) ∈ cases → ∀ t rules, (t, rules) ∈ cs → ∀ rule ∈ rules, P rule) :
    P (.mapProperties cases)
  mapBlockName (cases : List (String × List Rule))
    (inner : ∀ name rules, (name, rules) ∈ cases → ∀ rule ∈ rules, P rule) :
    P (.mapBlockName cases)
  multiblock (parts : List Part)
    (inner : ∀ offset rules, .mk offset rules ∈ parts → ∀ rule ∈ rules, P rule) :
    P (.multiblock parts)
  walk (path : Option Path) (node : WalkNode) (inner : N node) : P (.walk path node)
  newTags (entries : List NewTag) : P (.newTags entries)
  carryTag (c : Carry) : P (.carryTag c)
  mapTag (cases : Option (List (Tag × List Rule))) (otherwise : List Rule)
    (inner : ∀ cs, cases = some cs → ∀ t rules, (t, rules) ∈ cs → ∀ rule ∈ rules, P rule)
    (rest : ∀ rule ∈ otherwise, P rule) : P (.mapTag cases otherwise)
  script (c : ScriptCall) : P (.script c)
  node (kind : Option Kind) (rules : List Rule) (keys indices : List (String × WalkNode))
    (childDefault selfDefault : Option (List Rule)) (own : ∀ rule ∈ rules, P rule)
    (atKeys : ∀ key n, (key, n) ∈ keys → N n) (atIndices : ∀ index n, (index, n) ∈ indices → N n)
    (child : ∀ rs, childDefault = some rs → ∀ rule ∈ rs, P rule)
    (self : ∀ rs, selfDefault = some rs → ∀ rule ∈ rs, P rule) :
    N (.mk kind rules keys indices childDefault selfDefault)

private theorem sizeOf_lt_of_mem_pair {α β : Type} [SizeOf α] [SizeOf β] {a : α} {b : β}
    {x : List (α × β)} (h : (a, b) ∈ x) : sizeOf b < sizeOf x := by
  have hp := List.sizeOf_lt_of_mem h
  rw [Prod.mk.sizeOf_spec] at hp
  omega

variable {P : Rule → Prop} {N : WalkNode → Prop}

mutual

theorem Hereditary.rule (h : Hereditary P N) : ∀ rule, P rule
  | .newBlock id => h.newBlock id
  | .newEntity id => h.newEntity id
  | .newProperties ps => h.newProperties ps
  | .carryProperties allowed => h.carryProperties allowed
  | .mapProperties cases => h.mapProperties cases fun _ cs hcs _ rules hrules rule hrule =>
      have := List.sizeOf_lt_of_mem hrule
      have := sizeOf_lt_of_mem_pair hrules
      have := sizeOf_lt_of_mem_pair hcs
      h.rule rule
  | .mapBlockName cases => h.mapBlockName cases fun _ rules hrules rule hrule =>
      have := List.sizeOf_lt_of_mem hrule
      have := sizeOf_lt_of_mem_pair hrules
      h.rule rule
  | .multiblock parts => h.multiblock parts fun offset rules hpart rule hrule =>
      have := List.sizeOf_lt_of_mem hrule
      have := List.sizeOf_lt_of_mem hpart
      h.rule rule
  | .walk path node => h.walk path node (h.walkNode node)
  | .newTags entries => h.newTags entries
  | .carryTag c => h.carryTag c
  | .mapTag cases otherwise =>
      h.mapTag cases otherwise
        (fun cs hcs _ rules hrules rule hrule =>
          have := List.sizeOf_lt_of_mem hrule
          have := sizeOf_lt_of_mem_pair hrules
          have := congrArg sizeOf hcs
          h.rule rule)
        fun rule hrule =>
          have := List.sizeOf_lt_of_mem hrule
          h.rule rule
  | .script c => h.script c
termination_by rule => sizeOf rule
decreasing_by
  all_goals simp_wf
  all_goals simp_all
  all_goals omega

theorem Hereditary.walkNode (h : Hereditary P N) : ∀ node, N node
  | .mk kind rules keys indices childDefault selfDefault =>
      h.node kind rules keys indices childDefault selfDefault
        (fun rule hrule =>
          have := List.sizeOf_lt_of_mem hrule
          h.rule rule)
        (fun _ n hn =>
          have := sizeOf_lt_of_mem_pair hn
          h.walkNode n)
        (fun _ n hn =>
          have := sizeOf_lt_of_mem_pair hn
          h.walkNode n)
        (fun rs hrs rule hrule =>
          have := List.sizeOf_lt_of_mem hrule
          have := congrArg sizeOf hrs
          h.rule rule)
        fun rs hrs rule hrule =>
          have := List.sizeOf_lt_of_mem hrule
          have := congrArg sizeOf hrs
          h.rule rule
termination_by node => sizeOf node
decreasing_by
  all_goals simp_wf
  all_goals simp_all
  all_goals omega

end

end BlockConvert.Rule
