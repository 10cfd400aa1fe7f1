import BlockConvert.Proofs.Block.Layers

set_option autoImplicit false

/-!
# Stacks of layers

A block is the same as its stack, that is, itself without layers and then its layers, from below.
Stacking one block on another puts their stacks together, so it does not matter in which order
several blocks are stacked. The blocks that can be had are exactly those whose layers have no layers
of their own, and what was stacked on one can be taken away again.
-/

namespace BlockConvert.Block

variable {a b layer : Block} {layers : List Block}

/-! ## Stacks -/

theorem eq_of_flatten (h : a.flatten = b.flatten) : a = b := by
  obtain ⟨hbase, hlayers⟩ := List.cons.inj h
  obtain ⟨hid, hproperties, -⟩ := Block.mk.inj hbase
  cases a
  cases b
  simp_all

theorem flatten_withLayer (b layer : Block) :
    (b.withLayer layer).flatten = b.flatten ++ layer.flatten := rfl

theorem withLayer_assoc (a b c : Block) :
    (a.withLayer b).withLayer c = a.withLayer (b.withLayer c) := by
  apply eq_of_flatten
  calc
    ((a.withLayer b).withLayer c).flatten = (a.flatten ++ b.flatten) ++ c.flatten := by
      rw [flatten_withLayer, flatten_withLayer]
    _ = a.flatten ++ (b.flatten ++ c.flatten) := List.append_assoc ..
    _ = (a.withLayer (b.withLayer c)).flatten := by rw [flatten_withLayer, flatten_withLayer]

/-! ## Blocks without layers -/

theorem base_of_bare (h : b.layers = []) : b.base = b := by
  cases b
  simp_all [base, new]

theorem flatMap_flatten_of_bare (h : ∀ layer ∈ layers, layer.layers = []) :
    layers.flatMap flatten = layers := by
  induction layers with
  | nil => rfl
  | cons layer rest ih =>
    have hlayer : layer.layers = [] := h layer List.mem_cons_self
    rw [List.flatMap_cons, flatten, hlayer, base_of_bare hlayer,
      ih fun l hl => h l (List.mem_cons_of_mem _ hl)]
    rfl

/-- The layers of a flat block are put back as they are. -/
theorem IsFlat.withLayers_layers (h : b.IsFlat) : b.base.withLayers b.layers = b := by
  rw [withLayers, flatMap_flatten_of_bare h]
  exact eq_of_flatten rfl

theorem IsFlat.layers_withoutLayer (h : b.IsFlat) (layer : Block) :
    (b.withoutLayer layer).layers = b.layers.filter fun l => !decide (l = layer) :=
  flatMap_flatten_of_bare fun l hl => h l (List.mem_of_mem_filter hl)

theorem IsFlat.withoutLayer_withLayer (h : a.IsFlat) (hb : b.layers = []) (hnot : b ∉ a.layers) :
    (a.withLayer b).withoutLayer b = a := by
  have hflat : (a.withLayer b).IsFlat := h.withLayer (isFlat_of_bare hb)
  have hflatten : b.flatten = [b] := by rw [Block.flatten, base_of_bare hb, hb]
  have hstack : (a.withLayer b).layers = a.layers ++ [b] := congrArg (a.layers ++ ·) hflatten
  have hkept : a.layers.filter (fun l => !decide (l = b)) = a.layers :=
    List.filter_eq_self.2 fun l hl => by simpa using fun heq : l = b => hnot (heq ▸ hl)
  have hlayers : ((a.withLayer b).withoutLayer b).layers = a.layers := by
    rw [hflat.layers_withoutLayer, hstack, List.filter_append, hkept]
    simp
  exact eq_of_flatten (congrArg (a.base :: ·) hlayers)

/-! ## Blocks that can be had -/

theorem IsFlat.made (h : b.IsFlat) : b.Made := by
  have hlayers : ∀ layer ∈ b.layers, layer.Made := fun layer hlayer =>
    base_of_bare (h layer hlayer) ▸ Made.new layer.id layer.properties
  rw [← h.withLayers_layers]
  exact (Made.new b.id b.properties).withLayers hlayers

theorem made_iff_isFlat : b.Made ↔ b.IsFlat := ⟨Made.isFlat, IsFlat.made⟩

/-- The blocks that can be had are those whose layers have no layers. Stacking is associative, keeps
the base and puts the stack of the other block on top; and a block without layers that is stacked on
a block that does not have it can be taken away again. -/
theorem stacking_made :
    (∀ b : Block, b.Made ↔ ∀ layer ∈ b.layers, layer.layers = []) ∧
    (∀ a b c : Block, (a.withLayer b).withLayer c = a.withLayer (b.withLayer c)) ∧
    (∀ a b : Block, (a.withLayer b).base = a.base ∧
      (a.withLayer b).layers = a.layers ++ b.base :: b.layers) ∧
    ∀ a b : Block, a.Made → b.layers = [] → b ∉ a.layers →
      (a.withLayer b).withoutLayer b = a :=
  ⟨fun _ => made_iff_isFlat, withLayer_assoc, fun _ _ => ⟨rfl, rfl⟩,
    fun _ _ ha => ha.isFlat.withoutLayer_withLayer⟩

def water : Block := .new ⟨"minecraft", "water"⟩ (.ofList [("level", .string "0")])

def wetSlab : Block :=
  (Block.new ⟨"minecraft", "stone_slab"⟩ ∅).withLayer
    (.new ⟨"minecraft", "water"⟩ (.ofList [("level", .string "1")]))

theorem stacking_made_wetSlab :
    wetSlab.Made ∧ (∀ layer ∈ wetSlab.layers, layer.layers = []) ∧ water.layers = [] ∧
    water ∉ wetSlab.layers ∧ (wetSlab.withLayer water).withoutLayer water = wetSlab := by
  have hmade : wetSlab.Made := (Made.new _ _).withLayer (.new _ _)
  have hnot : water ∉ wetSlab.layers := by decide
  obtain ⟨hiff, -, -, htaken⟩ := stacking_made
  exact ⟨hmade, (hiff wetSlab).1 hmade, rfl, hnot, htaken wetSlab water hmade rfl hnot⟩

end BlockConvert.Block
