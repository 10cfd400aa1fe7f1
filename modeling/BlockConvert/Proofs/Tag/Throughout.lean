import BlockConvert.Table
import BlockConvert.Tag.Path
import BlockConvert.Tag.TypedList

set_option autoImplicit false

/-!
# Properties of all tags inside a tag

A property holds throughout a tag if it holds of the tag and throughout its children. Tags are well
formed if throughout them the elements of lists have the kind that the list declares, and the
entries of compounds are in order.
-/

namespace BlockConvert

namespace Tag

inductive Throughout (P : Tag → Prop) : Tag → Prop
  | mk {t : Tag} (here : P t) (inside : ∀ key u, (key, u) ∈ t.children → Throughout P u) :
      Throughout P t

variable {P Q : Tag → Prop} {t u : Tag} {key : PathKey}

theorem Throughout.here (h : Throughout P t) : P t := by
  cases h with
  | mk here _ => exact here

theorem Throughout.child (h : Throughout P t) (hchild : (key, u) ∈ t.children) :
    Throughout P u := by
  cases h with
  | mk _ inside => exact inside key u hchild

theorem Throughout.mono (h : Throughout P t) (hPQ : ∀ t, P t → Q t) : Throughout Q t := by
  induction h with
  | mk here _ ih => exact .mk (hPQ _ here) ih

theorem throughout_of_childless (hchildren : t.children = []) (h : P t) : Throughout P t :=
  .mk h fun _ _ hchild => by simp [hchildren] at hchild

theorem throughout_of_atoms (here : P t)
    (h : ∀ key u, (key, u) ∈ t.children → u.children = [] ∧ P u) : Throughout P t :=
  .mk here fun key u hchild =>
    throughout_of_childless (h key u hchild).1 (h key u hchild).2

theorem throughout_of_elements {α : Type} {make : α → Tag} {vs : List α} (here : P t)
    (hchildren : t.children = vs.zipIdx.map fun e => (.index e.2, make e.1))
    (h : ∀ v, (make v).children = [] ∧ P (make v)) : Throughout P t := by
  refine throughout_of_atoms here fun key u hchild => ?_
  rw [hchildren] at hchild
  obtain ⟨⟨v, i⟩, -, heq⟩ := List.mem_map.1 hchild
  cases heq
  exact h v

theorem throughout_compound {entries : List (String × Tag)} (here : P (compound entries))
    (h : ∀ e ∈ entries, Throughout P e.2) : Throughout P (compound entries) := by
  refine .mk here fun _ _ hchild => ?_
  obtain ⟨e, he, heq⟩ := List.mem_map.1 hchild
  cases heq
  exact h e he

theorem throughout_list {element : Option Kind} {items : List Tag} (here : P (list element items))
    (h : ∀ t ∈ items, Throughout P t) : Throughout P (list element items) := by
  refine .mk here fun _ _ hchild => ?_
  obtain ⟨⟨u, i⟩, he, heq⟩ := List.mem_map.1 hchild
  cases heq
  exact h u (List.fst_mem_of_mem_zipIdx he)

theorem mem_children_compound {entries : List (String × Tag)} {k : String}
    (h : (k, u) ∈ entries) : (.key k, u) ∈ (compound entries).children :=
  List.mem_map.2 ⟨(k, u), h, rfl⟩

theorem mem_children_list (element : Option Kind) {items : List Tag} :
    (key, u) ∈ (list element items).children ↔ ∃ i, key = .index i ∧ items[i]? = some u := by
  constructor
  · intro h
    obtain ⟨⟨t, i⟩, hmem, heq⟩ := List.mem_map.1 h
    cases heq
    exact ⟨i, rfl, List.mk_mem_zipIdx_iff_getElem?.1 hmem⟩
  · rintro ⟨i, rfl, hget⟩
    exact List.mem_map.2 ⟨(u, i), List.mk_mem_zipIdx_iff_getElem?.2 hget, rfl⟩

theorem exists_mem_children_list (element : Option Kind) {items : List Tag} (h : u ∈ items) :
    ∃ key, (key, u) ∈ (list element items).children := by
  obtain ⟨i, hget⟩ := List.mem_iff_getElem?.1 h
  exact ⟨.index i, (mem_children_list element).2 ⟨i, rfl, hget⟩⟩

def InOrder : Tag → Prop
  | list element items => TypedList.Homogeneous ⟨element, items⟩
  | compound entries => Table.Sorted entries
  | _ => True

def WellFormed (t : Tag) : Prop := t.Throughout InOrder

end Tag

theorem TypedList.homogeneous_of_kinds {element : Option Kind} {items : List Tag}
    (h : ∀ u ∈ items, element = some u.kind) : TypedList.Homogeneous ⟨element, items⟩ := by
  refine ⟨fun u hu => (h u hu).symm, fun hne => ?_⟩
  obtain ⟨u, hu⟩ := List.exists_mem_of_ne_nil _ hne
  rw [h u hu]
  rfl

theorem TypedList.Homogeneous.find?_eq_none {element : Option Kind} {t : Tag} {rest : List Tag}
    (h : TypedList.Homogeneous ⟨element, t :: rest⟩) :
    element = some t.kind ∧ ((t :: rest).find? fun u => u.kind != t.kind) = none := by
  obtain ⟨hkinds, -⟩ := h
  have helement : some t.kind = element := hkinds t (by simp)
  refine ⟨helement.symm, List.find?_eq_none.2 fun u hu => ?_⟩
  have hkind : u.kind = t.kind := Option.some.inj ((hkinds u hu).trans helement.symm)
  simp [hkind]

end BlockConvert
