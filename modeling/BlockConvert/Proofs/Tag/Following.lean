import BlockConvert.Proofs.Table.Lookup
import BlockConvert.Proofs.Tag.Throughout

set_option autoImplicit false

/-!
# Following a path

A path that is cut in two is followed part by part, and what holds throughout a tag holds throughout
every tag that a path leads to. The children of a tag are found under their keys, if each key stands
for one child only.
-/

namespace BlockConvert.Tag

/-- The entries of a compound are in order, so that no key stands twice. -/
def Keyed : Tag → Prop
  | compound entries => Table.Sorted entries
  | _ => True

variable {P : Tag → Prop} {t u : Tag} {key : PathKey}

theorem follow?_append (t : Tag) (p q : Path) :
    t.follow? (p ++ q) = (t.follow? p).bind (·.follow? q) := by
  induction p generalizing t with
  | nil => rfl
  | cons step rest ih =>
    simp only [List.cons_append, follow?, Option.bind_assoc]
    exact congrArg _ (funext fun child => ih child)

theorem follow?_step (t : Tag) (step : PathStep) : t.follow? [step] = t.at? step.key := by
  simp [follow?]

private theorem getElem?_of_mem_elements {α : Type} {vs : List α} {element : α → Tag}
    (h : (key, u) ∈ vs.zipIdx.map fun e => (PathKey.index e.2, element e.1)) :
    ∃ i, key = .index i ∧ vs[i]?.map element = some u := by
  obtain ⟨⟨v, i⟩, hmem, heq⟩ := List.mem_map.1 h
  cases heq
  exact ⟨i, rfl, by rw [List.mk_mem_zipIdx_iff_getElem?.1 hmem]; rfl⟩

theorem at?_of_mem_children (hkeyed : t.Keyed) (h : (key, u) ∈ t.children) :
    t.at? key = some u := by
  cases t with
  | compound entries =>
    obtain ⟨⟨k, v⟩, hmem, heq⟩ := List.mem_map.1 h
    cases heq
    exact Table.get?_of_mem hkeyed hmem
  | list element items =>
    obtain ⟨i, rfl, hget⟩ := (mem_children_list element).1 h
    exact hget
  | byteArray _ | intArray _ | longArray _ =>
    obtain ⟨i, rfl, hget⟩ := getElem?_of_mem_elements h
    exact hget
  | _ => contradiction

private theorem mem_elements_of_getElem? {α : Type} {vs : List α} {element : α → Tag} {i : Nat}
    (h : vs[i]?.map element = some u) :
    (.index i, u) ∈ vs.zipIdx.map fun e => (PathKey.index e.2, element e.1) := by
  obtain ⟨v, hget, rfl⟩ := Option.map_eq_some_iff.1 h
  exact List.mem_map.2 ⟨(v, i), List.mk_mem_zipIdx_iff_getElem?.2 hget, rfl⟩

theorem mem_children_of_at? (h : t.at? key = some u) : (key, u) ∈ t.children := by
  cases t with
  | compound entries =>
    cases key with
    | key k => exact mem_children_compound (Table.mem_of_get?_eq_some h)
    | index i => contradiction
  | list element items =>
    cases key with
    | key k => contradiction
    | index i => exact (mem_children_list element).2 ⟨i, rfl, h⟩
  | byteArray _ | intArray _ | longArray _ =>
    cases key with
    | key k => contradiction
    | index i => exact mem_elements_of_getElem? h
  | _ => contradiction

theorem Throughout.follow? {p : Path} (h : t.Throughout P) (hvalue : t.follow? p = some u) :
    u.Throughout P := by
  induction p generalizing t with
  | nil => exact Option.some.inj hvalue ▸ h
  | cons step rest ih =>
    obtain ⟨child, hchild, hrest⟩ := Option.bind_eq_some_iff.1 hvalue
    exact ih (h.child (mem_children_of_at? hchild)) hrest

end BlockConvert.Tag
