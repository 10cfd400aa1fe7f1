import BlockConvert.Proofs.Interpreter.Footing
import BlockConvert.Proofs.Tag.Following

set_option autoImplicit false

/-!
# Where the steps of a run stand

Every frame that a run comes to tells the truth about its place. Its coordinates differ from those
of the start by the offsets of the parts around it; its record and its tree are those of the start,
or those found at the offset; and its position, if it has one, leads to the tag that it holds. The
run itself is made of the steps that it reaches in such frames, and of nothing else.
-/

namespace BlockConvert

def offsetOf : List Enclosure → Coords
  | [] => .origin
  | .part offset :: around => offsetOf around + offset
  | .walk :: around => offsetOf around

def OutsideParts (enclosing : List Enclosure) : Prop := ∀ offset, .part offset ∉ enclosing

/-- The frame shows the block that is found at its offset, with the tree that belongs to it. -/
def Frame.ShowsFound (f : Frame) (r : Resources) : Prop :=
  ∃ look found b, r.lookup = some look ∧ look f.relative = .ok found ∧ found.block = some b ∧
    f.record = .block b ∧ f.tree = found.blockEntity.map fun e => e.tree.tag

/-- What a frame within the enclosures says about its place agrees with the frame at which the run
started. -/
structure Frame.Coherent (f : Frame) (r : Resources) (start : Frame) (enclosing : List Enclosure) :
    Prop where
  relative : f.relative = offsetOf enclosing
  absolute : f.absolute = start.absolute + f.relative
  outside : OutsideParts enclosing → f.record = start.record ∧ f.tree = start.tree
  inside : ¬OutsideParts enclosing → f.ShowsFound r
  position : ∀ c, f.cursor = some c →
    ∃ tree, f.tree = some tree ∧ tree.follow? c.path = some c.value
  firm : OutsideParts enclosing → ∀ c, f.cursor = some c → c.Firm

structure TreesKeyed (r : Resources) (start : Frame) : Prop where
  own : ∀ tree, start.tree = some tree → tree.Throughout Tag.Keyed
  found : ∀ look place found e, r.lookup = some look → look place = .ok found →
    found.blockEntity = some e → e.tree.tag.Throughout Tag.Keyed

variable {r : Resources} {start f g : Frame} {around e : List Enclosure} {rules inner : List Rule}
  {c d : Cursor} {tree : Tag}

theorem outsideParts_walk : OutsideParts (.walk :: around) ↔ OutsideParts around := by
  simp [OutsideParts]

theorem not_outsideParts_part (offset : Coords) : ¬OutsideParts (.part offset :: around) :=
  fun h => h offset (by simp)

namespace Cursor

def LeadsIn (c : Cursor) (tree : Tag) : Prop := tree.follow? c.path = some c.value

theorem LeadsIn.child (h : c.LeadsIn tree) (hkeyed : tree.Throughout Tag.Keyed) {key : PathKey}
    {t : Tag} (hchild : (key, t) ∈ c.value.children) : (c.child key t).LeadsIn tree := by
  have hvalue : c.value.Keyed := (hkeyed.follow? h).here
  show tree.follow? (c.path ++ [⟨key, t.kind⟩]) = some t
  rw [Tag.follow?_append, h, Option.bind_some, Tag.follow?_step]
  exact Tag.at?_of_mem_children hvalue hchild

end Cursor

namespace Rule

theorem Walks.leadsIn {node : WalkNode} (h : Walks node c inner d)
    (hkeyed : tree.Throughout Tag.Keyed) (hc : c.LeadsIn tree) : d.LeadsIn tree := by
  induction h with
  | own => exact hc
  | mistyped _ _ => exact hc
  | unaccounted _ hchild _ => exact hc.child hkeyed hchild
  | deeper _ hchild _ _ ih => exact ih (hc.child hkeyed hchild)

theorem Starts.leadsIn {path : Option Path} (h : Starts path f c)
    (hposition : ∀ d, f.cursor = some d → ∃ tree, f.tree = some tree ∧ d.LeadsIn tree) :
    ∃ tree, f.tree = some tree ∧ c.LeadsIn tree := by
  cases h with
  | along htree hvalue _ => exact ⟨_, htree, hvalue⟩
  | @current _ tree htree =>
    cases hcursor : f.cursor with
    | none => exact ⟨tree, htree, rfl⟩
    | some d => exact hposition d hcursor

end Rule

namespace Frame

theorem Coherent.keyed (h : f.Coherent r start around) (htrees : TreesKeyed r start)
    (htree : f.tree = some tree) : tree.Throughout Tag.Keyed := by
  by_cases hparts : OutsideParts around
  · exact htrees.own tree ((h.outside hparts).2 ▸ htree)
  · obtain ⟨look, found, b, hlook, hfound, -, -, hshown⟩ := h.inside hparts
    rw [hshown] at htree
    obtain ⟨e, he, rfl⟩ := Option.map_eq_some_iff.1 htree
    exact htrees.found look _ found e hlook hfound he

theorem coherent_start (h : start.relative = .origin) (hcursor : start.cursor = none) :
    start.Coherent r start [] where
  relative := h
  absolute := by rw [h, Coords.add_origin]
  outside _ := ⟨rfl, rfl⟩
  inside hparts := absurd (fun _ => List.not_mem_nil) hparts
  position c hc := by rw [hcursor] at hc; contradiction
  firm _ c hc := by rw [hcursor] at hc; contradiction

theorem Coherent.positioned {node : WalkNode} {path : Option Path} (h : f.Coherent r start around)
    (htrees : TreesKeyed r start) (hstart : Rule.Starts path f c)
    (hwalks : Rule.Walks node c inner d) : (f.positioned d).Coherent r start (.walk :: around) where
  relative := h.relative
  absolute := h.absolute
  outside hparts := h.outside (outsideParts_walk.1 hparts)
  inside hparts := h.inside fun hout => hparts (outsideParts_walk.2 hout)
  position := by
    rintro _ ⟨⟩
    obtain ⟨tree, htree, hc⟩ := hstart.leadsIn h.position
    exact ⟨tree, htree, hwalks.leadsIn (h.keyed htrees htree) hc⟩
  firm := by
    rintro hparts _ ⟨⟩
    have hcurrent := h.firm (outsideParts_walk.1 hparts)
    exact hwalks.firm (hstart.firm fun _ => hcurrent)

theorem Coherent.neighbour {lookup : Lookup} {offset : Coords} {found : Found} {b : Block}
    (h : f.Coherent r start around) (hlookup : r.lookup = some lookup)
    (hfound : lookup (f.relative + offset) = .ok found) (hblock : found.block = some b) :
    (f.neighbour offset b (found.blockEntity.map fun e => e.tree.tag)).Coherent r start
      (.part offset :: around) where
  relative := congrArg (· + offset) h.relative
  absolute := by
    show f.absolute + offset = start.absolute + (f.relative + offset)
    rw [h.absolute, Coords.add_assoc]
  outside hparts := absurd hparts (not_outsideParts_part offset)
  inside _ := ⟨lookup, found, b, hlookup, hfound, hblock, rfl, rfl⟩
  position c hc := by
    obtain ⟨d, -, hd⟩ := Option.bind_eq_some_iff.1 hc
    obtain ⟨value, hvalue, rfl⟩ := Option.map_eq_some_iff.1 hd
    exact Option.bind_eq_some_iff.1 hvalue
  firm hparts := absurd hparts (not_outsideParts_part offset)

/-- Rules inside a rule run in a frame that is as coherent as that of the rule. -/
theorem Coherent.enter {outer : Rule} (h : f.Coherent r start around)
    (htrees : TreesKeyed r start) (henters : Rule.Enters r outer f e inner g) :
    g.Coherent r start (e ++ around) := by
  cases henters with
  | propertyCase _ _ _ _ | nameCase _ _ | tagCase _ _ | otherwise _ _ => exact h
  | node hstart hwalks => exact h.positioned htrees hstart hwalks
  | part hlookup _ hfound hblock => exact h.neighbour hlookup hfound hblock

end Frame

namespace Rule

theorem Reaches.coherent {enclosing : List Enclosure} {rule : Rule}
    (hreach : Reaches r rules f enclosing g rule) (h : f.Coherent r start around)
    (htrees : TreesKeyed r start) : g.Coherent r start (enclosing ++ around) := by
  induction hreach generalizing around with
  | here _ => exact h
  | inside _ henters _ ih =>
    rw [List.append_assoc]
    exact ih (h.enter htrees henters)

/-- The states to which steps that a run reaches lead, one after another. -/
inductive StepsTo (r : Resources) (rules : List Rule) (f : Frame) (s : State) : State → Prop
  | start : StepsTo r rules f s s
  | step {t : State} {enclosing : List Enclosure} {g : Frame} {rule : Rule}
      (h : StepsTo r rules f s t) (hreach : Reaches r rules f enclosing g rule) :
      StepsTo r rules f s (own r rule g t).state

/-- Some step that the run reaches fails like this, in a state to which earlier steps lead. -/
def FailsIn (r : Resources) (rules : List Rule) (f : Frame) (s : State) (e : ConversionError) :
    Prop :=
  ∃ t enclosing g rule, StepsTo r rules f s t ∧ Reaches r rules f enclosing g rule ∧
    (own r rule g t).failure = some e

/-- All that a run decides, and every failure of it, comes from steps that it reaches. -/
theorem runAll_stepsTo (r : Resources) (rules : List Rule) (f : Frame) (s : State) :
    StepsTo r rules f s (runAll r rules f s).state ∧
      ∀ e, (runAll r rules f s).failure = some e → FailsIn r rules f s e :=
  runAll_keeps (fun enclosing g rule hreach t ht =>
    ⟨ht.step hreach, fun _ he => ⟨t, enclosing, g, rule, ht, hreach, he⟩⟩) s .start

end Rule

end BlockConvert
