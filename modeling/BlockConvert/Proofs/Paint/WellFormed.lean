import BlockConvert.Proofs.Paint.Rebuilding

set_option autoImplicit false

/-!
# Painted tags are well formed

An edit opens a child of the kind that it wants, and what it makes of the child has that kind again.
So a list that is retyped and padded keeps elements of one kind, a compound keeps its order, and
edits of well formed values leave a well formed tag.
-/

namespace BlockConvert

namespace Tag

structure Suits (k : Kind) (t : Tag) : Prop where
  kind : t.kind = k
  wellFormed : t.WellFormed

theorem suits_empty (k : Kind) : Suits k (empty k) := by
  have hhere : (empty k).InOrder := by
    cases k <;> simp [empty, InOrder, TypedList.Homogeneous, Table.Sorted]
  exact ⟨kind_empty k, throughout_of_childless (Paint.children_empty k) hhere⟩

theorem wellFormed_list {k : Kind} {items : List Tag} (h : ∀ u ∈ items, Suits k u) :
    (list (some k) items).WellFormed :=
  throughout_list (TypedList.homogeneous_of_kinds fun u hu => by rw [(h u hu).kind])
    fun u hu => (h u hu).wellFormed

theorem WellFormed.suits_of_mem {k : Kind} {items : List Tag} {u : Tag}
    (h : (list (some k) items).WellFormed) (hu : u ∈ items) : Suits k u := by
  have hkinds : ∀ t ∈ items, some t.kind = some k := h.here.1
  obtain ⟨key, hchild⟩ := exists_mem_children_list (some k) hu
  exact ⟨Option.some.inj (hkinds u hu), h.child hchild⟩

end Tag

theorem Paint.IsArray.wellFormed {α : Type} {array : List α → Tag} {make : α → Tag}
    {read : Tag → Option α} {zero : α} (h : IsArray array make read zero) (values : List α) :
    (array values).WellFormed := by
  cases h <;> exact Tag.throughout_of_elements trivial rfl fun _ => ⟨rfl, trivial⟩

open Tag (Suits suits_empty)

namespace TypedList

variable {l : TypedList} {k : Kind} {length : Nat} {u : Tag}

theorem suits_coerce (h : l.toTag.WellFormed) (hu : u ∈ (l.coerce k).items) : Suits k u := by
  obtain ⟨element, items⟩ := l
  unfold coerce at hu
  split at hu
  · rename_i helement
    have helement' : element = some k := helement
    subst helement'
    exact h.suits_of_mem hu
  · obtain ⟨-, -, rfl⟩ := List.mem_map.1 hu
    exact suits_empty k

theorem suits_padTo (h : l.toTag.WellFormed) (hu : u ∈ (l.padTo length k).items) : Suits k u := by
  rcases List.mem_append.1 hu with hold | hpad
  · exact suits_coerce h hold
  · rw [List.eq_of_mem_replicate hpad]
    exact suits_empty k

theorem wellFormed_coerce (h : l.toTag.WellFormed) (k : Kind) : (l.coerce k).toTag.WellFormed := by
  have hlist := Tag.wellFormed_list fun u hu => suits_coerce (k := k) h hu
  rwa [← coerce_element l k] at hlist

end TypedList

namespace Paint

variable {e : Edit}

theorem suits_openChild {child : Option Tag} (h : ∀ u, child = some u → u.WellFormed) (k : Kind) :
    Suits k (openChild child k) := by
  refine ⟨kind_openChild child k, ?_⟩
  cases child with
  | none => exact (suits_empty k).wellFormed
  | some u =>
    rw [openChild_some]
    split
    · exact h u rfl
    · exact (suits_empty k).wellFormed

theorem wellFormed_strokeEntries {entries : List (String × Tag)}
    (hentries : (Tag.compound entries).WellFormed)
    (h : ∀ child, Suits e.wants child → Suits e.wants (e.onChild child)) :
    (Tag.compound (strokeEntries entries e)).WellFormed := by
  unfold strokeEntries
  split
  · exact hentries
  · rename_i k _
    have hvalue (u : Tag) (hu : Table.get? entries k = some u) : u.WellFormed :=
      hentries.child (Tag.mem_children_compound (Table.mem_of_get?_eq_some hu))
    refine Tag.throughout_compound (Table.sorted_insert _ _ hentries.here) fun entry hentry => ?_
    rcases Table.mem_insert hentry with rfl | hold
    · exact (h _ (suits_openChild hvalue e.wants)).wellFormed
    · exact hentries.child (Tag.mem_children_compound hold)

theorem wellFormed_stroke {l : TypedList} (hl : l.toTag.WellFormed)
    (h : ∀ child, Suits e.wants child → Suits e.wants (e.onChild child)) :
    (l.stroke e).toTag.WellFormed := by
  cases hhead : e.head with
  | key k =>
    rw [l.stroke_of_key hhead]
    exact hl
  | index i =>
    by_cases hfits : e.head.Fits
    · have hopened {u : Tag} (hu : u ∈ (l.padTo (i + 1) e.wants).items) : Suits e.wants u :=
        TypedList.suits_padTo hl hu
      have hchild : Suits e.wants
          ((l.padTo (i + 1) e.wants).items[i]?.getD (Tag.empty e.wants)) := by
        cases hget : (l.padTo (i + 1) e.wants).items[i]? with
        | none => exact suits_empty e.wants
        | some u => exact hopened (List.mem_of_getElem? hget)
      rw [l.stroke_of_fits hhead hfits, TypedList.padTo_element]
      refine Tag.wellFormed_list fun u hu => ?_
      rcases List.mem_or_eq_of_mem_set hu with hold | rfl
      · exact hopened hold
      · exact h _ hchild
    · rw [l.stroke_of_not_fits hfits]
      exact TypedList.wellFormed_coerce hl e.wants

theorem wellFormed_apply_of {t : Tag} (ht : t.WellFormed)
    (h : ∀ child, Suits e.wants child → Suits e.wants (e.onChild child)) :
    (apply t e).tag.WellFormed := by
  cases t using formCases with
  | barren t hbarren =>
    rw [apply_barren hbarren]
    exact ht
  | compound entries =>
    rw [apply_compound]
    exact wellFormed_strokeEntries ht h
  | list l =>
    rw [apply_list]
    exact wellFormed_stroke ht h
  | array harray values =>
    rw [(harray.apply_eq values e).1]
    exact harray.wellFormed _

/-- The induction is on the path of the edit, which is shorter below the child. -/
theorem wellFormed_apply {t : Tag} (ht : t.WellFormed) (hvalue : e.value.WellFormed) :
    (apply t e).tag.WellFormed := by
  induction hpath : e.path generalizing e t with
  | nil =>
    have hleaf : e.isLeaf = true := by simp [Edit.isLeaf, hpath]
    refine wellFormed_apply_of ht fun child _ => ?_
    rw [Edit.onChild_leaf hleaf]
    exact ⟨(Edit.wants_leaf hleaf).symm, hvalue⟩
  | cons step rest ih =>
    have hdeep : e.isLeaf = false := by simp [Edit.isLeaf, hpath]
    refine wellFormed_apply_of ht fun child hchild => ⟨e.kind_onChild hchild.kind, ?_⟩
    rw [Edit.onChild_below hdeep]
    exact ih hchild.wellFormed hvalue (congrArg List.tail hpath)

theorem wellFormed_paint {t : Tag} {es : List Edit} (ht : t.WellFormed)
    (h : ∀ e ∈ es, e.value.WellFormed) : (paint t es).WellFormed := by
  induction es generalizing t with
  | nil => exact ht
  | cons e rest ih =>
    rw [paint_cons]
    exact ih (wellFormed_apply ht (h e (by simp))) fun d hd => h d (List.mem_cons_of_mem _ hd)

end Paint

end BlockConvert
