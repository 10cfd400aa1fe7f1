import BlockConvert.Proofs.Paint.Idempotence
import BlockConvert.Proofs.Paint.WellFormed
import BlockConvert.Proofs.Tag.Following

set_option autoImplicit false

/-!
# An edit writes its slot and nothing else

An edit that lands is read back at the end of its way, whatever it had to open, retype or pad before
it got there. Whether it lands or not, a tag elsewhere stays, if every node that the edit passes on
the way is already of the kind that it declares: then the edit opens nothing anew, and a list is
only retyped where the edit turns to another element than the tag stands in.
-/

namespace BlockConvert

/-- Along both paths the tag has the nodes that the first one declares, until the second one turns
to another child; if that is in a list, the list is for the kind that the first one declares. -/
def Tag.Separates : Tag → Path → Path → Prop
  | t, s :: p, r :: q =>
    if s.key = r.key then
      ∃ child, t.at? s.key = some child ∧ child.kind = s.kind ∧ Separates child p q
    else ∀ element items, t = .list element items → element = some s.kind
  | _, _, _ => False

namespace Paint

variable {t u child : Tag} {e : Edit} {key : PathKey}

/-! ## Where an edit lands -/

theorem landing_barren (h : t.kind ∈ barren) (e : Edit) : (apply t e).landing = .dropped := by
  obtain ⟨name, kind, path, key, value⟩ := e
  cases t <;> first
    | (cases path <;> rfl)
    | simp [barren, Tag.kind] at h

theorem landing_compound (entries : List (String × Tag)) (e : Edit) :
    (apply (.compound entries) e).landing = match e.head with
      | .key k => e.landingOn (openChild (Table.get? entries k) e.wants)
      | .index _ => .dropped := by
  obtain ⟨name, kind, path, key, value⟩ := e
  cases path with
  | nil => cases key <;> rfl
  | cons step rest =>
    obtain ⟨key, expected⟩ := step
    cases key <;> rfl

theorem landing_list_of_fits {i : Nat} (l : TypedList) (hhead : e.head = .index i)
    (hfits : e.head.Fits) : (apply l.toTag e).landing =
      e.landingOn ((l.padTo (i + 1) e.wants).items[i]?.getD (Tag.empty e.wants)) := by
  rw [apply_list_of_fits l hhead hfits]

theorem landing_list_of_not_fits (l : TypedList) (hfits : ¬e.head.Fits) :
    (apply l.toTag e).landing = .overflow := by
  rw [apply_list_of_not_fits l hfits]

theorem landing_list_of_key {k : String} (l : TypedList) (hhead : e.head = .key k) :
    (apply l.toTag e).landing = .dropped := by
  rw [apply_list_of_key l hhead]

theorem exists_index_of_landing {l : TypedList} (h : (apply l.toTag e).landing = .written) :
    ∃ i, e.head = .index i ∧ e.head.Fits := by
  by_cases hfits : e.head.Fits
  · cases hhead : e.head with
    | index i => exact ⟨i, rfl, hhead ▸ hfits⟩
    | key k => simp [landing_list_of_key l hhead] at h
  · simp [landing_list_of_not_fits l hfits] at h

namespace IsArray

variable {α : Type} {array : List α → Tag} {make : α → Tag} {read : Tag → Option α} {zero : α}

theorem make_of_read (h : IsArray array make read zero) {v : α} (hread : read t = some v) :
    t = make v := by
  cases h <;> cases t <;> cases hread <;> rfl

theorem at?_index (h : IsArray array make read zero) (values : List α) (i : Nat) :
    (array values).at? (.index i) = values[i]?.map make := by
  cases h <;> rfl

theorem at?_key (h : IsArray array make read zero) (values : List α) (k : String) :
    (array values).at? (.key k) = none := by
  cases h <;> rfl

theorem make_barren (h : IsArray array make read zero) (v : α) : (make v).kind ∈ barren := by
  cases h <;> simp [barren, Tag.kind]

theorem at?_head_of_landing (h : IsArray array make read zero) {values : List α}
    (hland : (apply (array values) e).landing = .written) :
    e.isLeaf = true ∧ (apply (array values) e).tag.at? e.head = some e.value := by
  obtain ⟨htag, hlanding⟩ := h.apply_eq values e
  cases helement : e.element? read with
  | none =>
    rw [hlanding, helement, if_neg (by simp)] at hland
    split at hland <;> cases hland
  | some w =>
    obtain ⟨i, v⟩ := w
    obtain ⟨hleaf, ⟨hhead, -⟩, hread⟩ := Edit.element?_eq_some helement
    refine ⟨hleaf, ?_⟩
    rw [htag, helement, hhead, h.at?_index, getElem?_writeAt, if_pos rfl, h.make_of_read hread,
      Option.map_some]

end IsArray

theorem at?_head_compound {k : String} (h : e.head = .key k) (entries : List (String × Tag)) :
    (apply (.compound entries) e).tag.at? e.head =
      some (e.onChild (openChild (Table.get? entries k) e.wants)) := by
  rw [apply_compound, h]
  exact (get?_strokeEntries entries e k).trans (if_pos h)

theorem at?_head_list {i : Nat} (h : e.head = .index i) (hfits : e.head.Fits) (l : TypedList) :
    (apply l.toTag e).tag.at? e.head =
      some (e.onChild ((l.padTo (i + 1) e.wants).items[i]?.getD (Tag.empty e.wants))) := by
  rw [apply_list, l.stroke_of_fits h hfits, h]
  simp only [TypedList.toTag, Tag.at?]
  exact List.getElem?_set_self (l.lt_length_padTo i e.wants)

/-- An edit that lands has made its child, and it has landed in the child. -/
theorem at?_head_of_landing (h : (apply t e).landing = .written) :
    ∃ child, (apply t e).tag.at? e.head = some (e.onChild child) ∧
      e.landingOn child = .written := by
  cases t using formCases with
  | barren t hbarren => simp [landing_barren hbarren e] at h
  | compound entries =>
    cases hhead : e.head with
    | index i => simp [landing_compound, hhead] at h
    | key k =>
      rw [landing_compound, hhead] at h
      exact ⟨_, hhead ▸ at?_head_compound hhead entries, h⟩
  | list l =>
    obtain ⟨i, hhead, hfits⟩ := exists_index_of_landing h
    rw [landing_list_of_fits l hhead hfits] at h
    exact ⟨_, at?_head_list hhead hfits l, h⟩
  | array harray values =>
    obtain ⟨hleaf, hget⟩ := harray.at?_head_of_landing h
    exact ⟨e.value, by rw [hget, Edit.onChild_leaf hleaf], Edit.landingOn_leaf hleaf e.value⟩

/-- The induction is on the path of the edit. -/
theorem follow?_target (h : (apply t e).landing = .written) :
    (apply t e).tag.follow? e.target = some e.value := by
  induction hpath : e.path generalizing e t with
  | nil =>
    have hleaf : e.isLeaf = true := by simp [Edit.isLeaf, hpath]
    obtain ⟨child, hget, -⟩ := at?_head_of_landing h
    rw [Edit.onChild_leaf hleaf] at hget
    rw [Edit.target_leaf hleaf, Tag.follow?_step]
    exact hget
  | cons step rest ih =>
    have hdeep : e.isLeaf = false := by simp [Edit.isLeaf, hpath]
    obtain ⟨child, hget, hland⟩ := at?_head_of_landing h
    rw [Edit.onChild_below hdeep] at hget
    rw [Edit.landingOn_below hdeep] at hland
    rw [Edit.target_below hdeep, Tag.follow?, Edit.first, hget]
    exact ih hland (congrArg List.tail hpath)

/-! ## What an edit leaves alone -/

theorem IsArray.at?_of_get {α : Type} {array : List α → Tag} {make : α → Tag}
    {read : Tag → Option α} {zero : α} (harray : IsArray array make read zero) {values : List α}
    (hget : (array values).at? key = some u) (h : key ≠ e.head) :
    (apply (array values) e).tag.at? key = some u := by
  rw [(harray.apply_eq values e).1]
  cases helement : e.element? read with
  | none => exact hget
  | some w =>
    obtain ⟨i, v⟩ := w
    obtain ⟨-, ⟨hhead, -⟩, -⟩ := Edit.element?_eq_some helement
    cases key with
    | key k => simp [harray.at?_key] at hget
    | index j =>
      have hne : j ≠ i := fun hji => h (by rw [hhead, hji])
      rw [harray.at?_index] at hget ⊢
      obtain ⟨w, hw, -⟩ := Option.map_eq_some_iff.1 hget
      have hlt := (List.getElem?_eq_some_iff.1 hw).1
      rw [getElem?_writeAt, if_neg hne, if_pos hlt]
      exact hget

theorem getElem?_padTo {l : TypedList} {k : Kind} {i : Nat} (length : Nat)
    (helement : l.element = some k) (hget : l.items[i]? = some u) :
    (l.padTo length k).items[i]? = some u := by
  have hlt := (List.getElem?_eq_some_iff.1 hget).1
  rw [TypedList.padTo, TypedList.coerce, if_pos helement]
  exact (List.getElem?_append_left hlt).trans hget

theorem stroke_of_not_fits_of_element {l : TypedList} (hfits : ¬e.head.Fits)
    (helement : l.element = some e.wants) : l.stroke e = l := by
  rw [l.stroke_of_not_fits hfits, TypedList.coerce, if_pos helement]

theorem at?_stroke_of_get {l : TypedList} (hget : l.toTag.at? key = some u) (h : key ≠ e.head)
    (helement : l.element = some e.wants) : (l.stroke e).toTag.at? key = some u := by
  cases hhead : e.head with
  | key k =>
    rw [l.stroke_of_key hhead]
    exact hget
  | index i =>
    by_cases hfits : e.head.Fits
    · rw [l.stroke_of_fits hhead hfits]
      cases key with
      | key k => contradiction
      | index j =>
        have hne : i ≠ j := fun hij => h (by rw [hhead, hij])
        exact (List.getElem?_set_ne hne).trans (getElem?_padTo (i + 1) helement hget)
    · rw [stroke_of_not_fits_of_element hfits helement]
      exact hget

theorem at?_of_ne_head (hget : t.at? key = some u) (h : key ≠ e.head)
    (hlist : ∀ element items, t = .list element items → element = some e.wants) :
    (apply t e).tag.at? key = some u := by
  cases t using formCases with
  | barren t hbarren =>
    rw [apply_barren hbarren]
    exact hget
  | compound entries =>
    rw [apply_compound]
    cases key with
    | index i => contradiction
    | key k => exact (get?_strokeEntries entries e k).trans ((if_neg h.symm).trans hget)
  | list l =>
    rw [apply_list]
    exact at?_stroke_of_get hget h (hlist l.element l.items rfl)
  | array harray values => exact harray.at?_of_get hget h

/-- At an index that no length goes with, a tag stays as it is, a list if it is not retyped. -/
theorem apply_of_not_fits (hfits : ¬e.head.Fits)
    (hlist : ∀ element items, t = .list element items → element = some e.wants) :
    (apply t e).tag = t := by
  obtain ⟨i, hhead⟩ : ∃ i, e.head = .index i := by
    cases hhead : e.head with
    | index i => exact ⟨i, rfl⟩
    | key k => exact absurd (hhead ▸ PathKey.fits_key k) hfits
  have hnone {α : Type} (read : Tag → Option α) : e.element? read = none := by
    cases helement : e.element? read with
    | none => rfl
    | some w =>
      obtain ⟨-, ⟨hhits, hindex⟩, -⟩ := Edit.element?_eq_some helement
      exact absurd (hhits ▸ hindex) hfits
  cases t using formCases with
  | barren t hbarren => exact apply_barren hbarren e
  | compound entries => rw [apply_compound, strokeEntries, hhead]
  | list l =>
    rw [apply_list, stroke_of_not_fits_of_element hfits (hlist l.element l.items rfl)]
  | array harray values => rw [(harray.apply_eq values e).1, hnone]

theorem IsArray.at?_head {α : Type} {array : List α → Tag} {make : α → Tag}
    {read : Tag → Option α} {zero : α} (h : IsArray array make read zero) {values : List α}
    (hget : (array values).at? e.head = some child) (hdeep : e.isLeaf = false) :
    (apply (array values) e).tag.at? e.head = some (e.onChild child) := by
  have hnone : e.element? read = none := by
    cases helement : e.element? read with
    | none => rfl
    | some w => simp [(Edit.element?_eq_some helement).1] at hdeep
  have hbarren : child.kind ∈ barren := by
    cases hhead : e.head with
    | key k => simp [hhead, h.at?_key] at hget
    | index i =>
      rw [hhead, h.at?_index] at hget
      obtain ⟨v, -, rfl⟩ := Option.map_eq_some_iff.1 hget
      exact h.make_barren v
  rw [(h.apply_eq values e).1, hnone, Edit.onChild_below hdeep, apply_barren hbarren]
  exact hget

theorem element_of_child (ht : t.InOrder) (hget : t.at? key = some child) :
    ∀ element items, t = .list element items → element = some child.kind := by
  rintro element items rfl
  cases key with
  | key k => contradiction
  | index i => exact (ht.1 child (List.mem_of_getElem? hget)).symm

theorem at?_head_of_kind (ht : t.InOrder) (hget : t.at? e.head = some child)
    (hkind : child.kind = e.wants) (hfits : e.head.Fits) (hdeep : e.isLeaf = false) :
    (apply t e).tag.at? e.head = some (e.onChild child) := by
  cases t using formCases with
  | barren t hbarren => cases t <;> contradiction
  | compound entries =>
    cases hhead : e.head with
    | index i =>
      rw [hhead] at hget
      contradiction
    | key k =>
      rw [hhead] at hget
      have hchild : Table.get? entries k = some child := hget
      rw [← hhead, at?_head_compound hhead, hchild, openChild_some, if_pos hkind]
  | list l =>
    have helement := element_of_child ht hget l.element l.items rfl
    rw [hkind] at helement
    cases hhead : e.head with
    | key k =>
      rw [hhead] at hget
      contradiction
    | index i =>
      rw [hhead] at hget
      have hopened := getElem?_padTo (i + 1) helement hget
      rw [← hhead, at?_head_list hhead hfits, hopened, Option.getD_some]
  | array harray values => exact harray.at?_head hget hdeep

theorem follow?_of_ne_head {r : PathStep} {q : Path} {v : Tag} (h : r.key ≠ e.head)
    (hlist : ∀ element items, t = .list element items → element = some e.wants)
    (hvalue : t.follow? (r :: q) = some v) : (apply t e).tag.follow? (r :: q) = some v := by
  obtain ⟨child, hget, hrest⟩ := Option.bind_eq_some_iff.1 hvalue
  rw [Tag.follow?, at?_of_ne_head hget h hlist]
  exact hrest

/-- The induction is on the path of the edit, as far as the position goes along. -/
theorem follow?_apply {q : Path} {v : Tag} (ht : t.WellFormed) (h : t.Separates e.target q)
    (hvalue : t.follow? q = some v) : (apply t e).tag.follow? q = some v := by
  induction hpath : e.path generalizing e t q with
  | nil =>
    have hleaf : e.isLeaf = true := by simp [Edit.isLeaf, hpath]
    rw [Edit.target_leaf hleaf] at h
    cases q with
    | nil => exact h.elim
    | cons r q =>
      by_cases hkey : e.first.key = r.key
      · obtain ⟨child, -, -, hnever⟩ := (if_pos hkey).mp h
        exact hnever.elim
      · exact follow?_of_ne_head (Ne.symm hkey) ((if_neg hkey).mp h) hvalue
  | cons step rest ih =>
    have hdeep : e.isLeaf = false := by simp [Edit.isLeaf, hpath]
    rw [Edit.target_below hdeep] at h
    cases q with
    | nil => exact h.elim
    | cons r q =>
      by_cases hkey : e.first.key = r.key
      · obtain ⟨child, hget, hkind, hbelow⟩ := (if_pos hkey).mp h
        have hrest : child.follow? q = some v := by
          rwa [Tag.follow?, ← hkey, hget] at hvalue
        have hchild : child.WellFormed := ht.child (Tag.mem_children_of_at? hget)
        by_cases hfits : e.head.Fits
        · rw [Tag.follow?, ← hkey]
          refine Option.bind_eq_some_iff.2 ⟨_, at?_head_of_kind ht.here hget hkind hfits hdeep, ?_⟩
          rw [Edit.onChild_below hdeep]
          exact ih hchild hbelow hrest (congrArg List.tail hpath)
        · have hlist := element_of_child ht.here hget
          rw [hkind] at hlist
          rw [apply_of_not_fits hfits hlist]
          exact hvalue
      · exact follow?_of_ne_head (Ne.symm hkey) ((if_neg hkey).mp h) hvalue

/-! ## Painting one more edit -/

theorem applyAll_append (root : Tag) (es fs : List Edit) : applyAll root (es ++ fs) =
    ((applyAll (applyAll root es).1 fs).1,
      (applyAll root es).2 ++ (applyAll (applyAll root es).1 fs).2) := by
  induction es generalizing root with
  | nil => rfl
  | cons e rest ih =>
    simp only [List.cons_append, applyAll, ih]

variable {name : String} {kind : Kind}

theorem build_append (hfor : e.isFor name kind = true) (edits : List Edit)
    (template : Option Tag) : build name kind (edits ++ [e]) template =
      ⟨⟨name, (apply (build name kind edits template).tree.tag e).tag⟩,
        (build name kind edits template).landed ++
          [(e, (apply (build name kind edits template).tree.tag e).landing)]⟩ := by
  have hfilter : [e].filter (·.isFor name kind) = [e] := by simp [hfor]
  simp only [build, List.filter_append, hfilter, applyAll_append, applyAll]

theorem build_append_other (hfor : e.isFor name kind = false) (edits : List Edit)
    (template : Option Tag) :
    build name kind (edits ++ [e]) template = build name kind edits template := by
  simp [build, List.filter_append, hfor]

theorem wellFormed_build {edits : List Edit} {template : Option Tag}
    (htemplate : ∀ t ∈ template, t.WellFormed) (hedits : ∀ d ∈ edits, d.value.WellFormed) :
    (build name kind edits template).tree.tag.WellFormed := by
  rw [tag_build]
  refine wellFormed_paint ?_ fun d hd => hedits d (List.mem_filter.1 hd).1
  cases template with
  | none => exact (Tag.suits_empty kind).wellFormed
  | some t => exact htemplate t rfl

/-- One edit more that is for the tree: if it is not lost, its value is read at its target; and in
any case every tag stays that stood elsewhere, past the nodes that the edit declares. -/
theorem build_writes_only_target (name : String) (kind : Kind) (edits : List Edit)
    (template : Option Tag) (hfor : e.isFor name kind = true) :
    ((build name kind (edits ++ [e]) template).lost = (build name kind edits template).lost →
      (build name kind (edits ++ [e]) template).tree.tag.follow? e.target = some e.value) ∧
    ((∀ t ∈ template, t.WellFormed) → (∀ d ∈ edits, d.value.WellFormed) → ∀ q v,
      (build name kind edits template).tree.tag.Separates e.target q →
      (build name kind edits template).tree.tag.follow? q = some v →
      (build name kind (edits ++ [e]) template).tree.tag.follow? q = some v) := by
  rw [build_append hfor]
  constructor
  · intro hkept
    refine follow?_target ?_
    by_contra hlost
    simp [Painting.lost, hlost] at hkept
  · intro htemplate hedits q v hseparates hvalue
    exact follow?_apply (wellFormed_build htemplate hedits) hseparates hvalue

def idItems : Tag :=
  .compound [("Items", .list (some .compound)
    [.compound [("id", .string "bow")], .compound [("id", .string "axe")]])]

def itemPath (index : Nat) : Path := [.atKey "Items" .list, .atIndex index .compound]

def countEdit (index : Nat) (count : Int8) : Edit :=
  .new (itemPath index) (.key "Count") (.byte count)

def idPath (index : Nat) : Path := itemPath index ++ [.atKey "id" .string]

theorem idItems_wellFormed : idItems.WellFormed := by
  have hitem (id : String) : Tag.Suits .compound (.compound [("id", .string id)]) := by
    refine ⟨rfl, Tag.throughout_compound (List.pairwise_singleton _ _) fun e he => ?_⟩
    rw [List.mem_singleton.1 he]
    exact Tag.throughout_of_childless rfl trivial
  refine Tag.throughout_compound (List.pairwise_singleton _ _) fun e he => ?_
  rw [List.mem_singleton.1 he]
  refine Tag.wellFormed_list fun u hu => ?_
  rcases List.mem_cons.1 hu with rfl | hu
  · exact hitem "bow"
  · rw [List.mem_singleton.1 hu]
    exact hitem "axe"

theorem build_writes_only_target_count :
    (countEdit 1 3).isFor "" .compound = true ∧ idItems.WellFormed ∧
      (build "" .compound ([countEdit 0 2] ++ [countEdit 1 3]) (some idItems)).tree.tag.follow?
        (countEdit 1 3).target = some (.byte 3) ∧
      (build "" .compound ([countEdit 0 2] ++ [countEdit 1 3]) (some idItems)).tree.tag.follow?
        (idPath 0) = some (.string "bow") := by
  have hfor : (countEdit 1 3).isFor "" .compound = true := by decide
  obtain ⟨hlands, hstays⟩ :=
    build_writes_only_target "" .compound [countEdit 0 2] (some idItems) hfor
  refine ⟨hfor, idItems_wellFormed, hlands rfl, ?_⟩
  refine hstays (fun t ht => ?_) (fun d hd => ?_) (idPath 0) (.string "bow") ?_ rfl
  · cases ht
    exact idItems_wellFormed
  · rw [List.mem_singleton.1 hd]
    exact Tag.throughout_of_childless rfl trivial
  · -- past the list, the edit turns to the other item
    refine (if_pos rfl).mpr ⟨_, rfl, rfl, (if_neg (by decide)).mpr ?_⟩
    intro element items h
    cases h
    rfl

end Paint

end BlockConvert
