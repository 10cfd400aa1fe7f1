import BlockConvert.Block.Blockstate
import BlockConvert.Proofs.Snbt.Elements

set_option autoImplicit false

/-!
# Layers are one deep

A block that is read or made new has no layers, and the operations on layers take the stacks of
their operands apart. So no layer of a block that can be had has layers of its own.
-/

namespace BlockConvert.Block

variable {b layer : Block} {layers : List Block}

inductive Made : Block → Prop
  | new (id : RecordId) (properties : Properties) : Made (new id properties)
  | read {text : String} {b : Block} (h : ofBlockstate text = .ok b) : Made b
  | base {b : Block} (h : Made b) : Made b.base
  | layer {b layer : Block} (h : Made b) (hmem : layer ∈ b.layers) : Made layer
  | withLayer {b layer : Block} (h : Made b) (hlayer : Made layer) : Made (b.withLayer layer)
  | withLayers {b : Block} {layers : List Block} (h : Made b)
      (hlayers : ∀ layer ∈ layers, Made layer) : Made (b.withLayers layers)
  | withoutLayer {b : Block} (h : Made b) (layer : Block) : Made (b.withoutLayer layer)
  | removeLayer {b : Block} (h : Made b) (index : Nat) : Made (b.removeLayer index)

theorem isFlat_of_bare (h : b.layers = []) : b.IsFlat := fun l hl => by
  rw [h] at hl
  contradiction

theorem layers_ofBlockstate {text : String} (h : ofBlockstate text = .ok b) : b.layers = [] := by
  rw [ofBlockstate, Blockstate.readChars] at h
  obtain ⟨⟨name, inner⟩, -, h⟩ := Snbt.bind_eq_ok.1 h
  dsimp only at h
  split at h
  · contradiction
  · cases inner <;>
    · obtain ⟨properties, -, h⟩ := Snbt.bind_eq_ok.1 h
      cases h
      rfl

theorem IsFlat.flatten (h : b.IsFlat) : ∀ l ∈ b.flatten, l.layers = [] :=
  List.forall_mem_cons.2 ⟨rfl, h⟩

theorem IsFlat.withLayer (h : b.IsFlat) (hlayer : layer.IsFlat) : (b.withLayer layer).IsFlat :=
  List.forall_mem_append.2 ⟨h, hlayer.flatten⟩

theorem isFlat_withLayers (b : Block) (h : ∀ layer ∈ layers, layer.IsFlat) :
    (b.withLayers layers).IsFlat := fun l hl => by
  obtain ⟨layer, hlayer, hmem⟩ := List.mem_flatMap.1 hl
  exact (h layer hlayer).flatten l hmem

/-- Taking layers of a flat block keeps it flat. -/
theorem IsFlat.withLayers_of_subset (h : b.IsFlat) (hsub : layers ⊆ b.layers) :
    (b.withLayers layers).IsFlat :=
  isFlat_withLayers b fun layer hlayer => isFlat_of_bare (h layer (hsub hlayer))

theorem Made.isFlat (h : b.Made) : b.IsFlat := by
  induction h with
  | new | base => exact isFlat_of_bare rfl
  | read h => exact isFlat_of_bare (layers_ofBlockstate h)
  | layer _ hmem ih => exact isFlat_of_bare (ih _ hmem)
  | withLayer _ _ ih ih' => exact ih.withLayer ih'
  | withLayers _ _ _ ih => exact isFlat_withLayers _ ih
  | withoutLayer _ layer ih => exact ih.withLayers_of_subset (fun _ => List.mem_of_mem_filter)
  | removeLayer _ index ih => exact ih.withLayers_of_subset List.eraseIdx_subset

end BlockConvert.Block
