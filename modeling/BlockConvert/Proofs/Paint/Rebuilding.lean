import BlockConvert.Proofs.Paint.Elements
import BlockConvert.Proofs.Paint.Entries
import BlockConvert.Proofs.Table.Lookup
import BlockConvert.Proofs.Tag.Throughout

set_option autoImplicit false

/-!
# Painting a tag from its children

A compound, a list or an array is painted from an empty tag of its kind by edits that restore its
children one after another. A child is restored as a whole, or by edits inside it. Each slot takes
only the edits of its own child, and the edits of other children open it for the kind that the child
has anyway.
-/

namespace BlockConvert

namespace Tag

variable {t u : Tag} {key : PathKey}

/-- A word counts the children, as it does for every tag that is held in memory. -/
def Counted (t : Tag) : Prop := t.children.length < UInt64.size

instance (t : Tag) : Decidable t.Counted := inferInstanceAs (Decidable (_ < _))

theorem counted_of_childless (h : t.children = []) : t.Counted := by
  rw [Counted, h]
  decide

theorem fits_of_mem_elements {α : Type} (make : α → Tag) {vs : List α}
    (hcount : (vs.zipIdx.map fun e => (PathKey.index e.2, make e.1)).length < UInt64.size)
    (h : (key, u) ∈ vs.zipIdx.map fun e => (PathKey.index e.2, make e.1)) : key.Fits := by
  obtain ⟨⟨v, i⟩, hmem, heq⟩ := List.mem_map.1 h
  cases heq
  obtain ⟨hlt, -⟩ := List.getElem?_eq_some_iff.1 (List.mk_mem_zipIdx_iff_getElem?.1 hmem)
  rw [List.length_map, List.length_zipIdx] at hcount
  exact Nat.lt_of_le_of_lt hlt hcount

theorem Counted.fits (h : t.Counted) (hchild : (key, u) ∈ t.children) : key.Fits := by
  cases t with
  | compound entries =>
    obtain ⟨e, -, heq⟩ := List.mem_map.1 hchild
    cases heq
    trivial
  | list element items => exact fits_of_mem_elements id h hchild
  | byteArray vs => exact fits_of_mem_elements byte h hchild
  | intArray vs => exact fits_of_mem_elements int h hchild
  | longArray vs => exact fits_of_mem_elements long h hchild
  | _ => simp [children] at hchild

end Tag

namespace Edit

/-- The edit in a tag around the one that it was meant for. -/
def beneath (p : Path) (e : Edit) : Edit := { e with path := p ++ e.path }

variable {step : PathStep} {e : Edit}

theorem beneath_nil (e : Edit) : e.beneath [] = e := rfl

theorem beneath_beneath (p q : Path) (e : Edit) :
    (e.beneath q).beneath p = e.beneath (p ++ q) := by
  simp [beneath]

theorem head_beneath : (e.beneath [step]).head = step.key := rfl

theorem below_beneath : (e.beneath [step]).below = e := rfl

end Edit

namespace Paint

theorem openChild_paintEntries (key : String) (kind : Kind) (entries : List (String × Tag))
    (es : List Edit) :
    openChild (Table.get? (paintEntries entries (es.map (Edit.beneath [.atKey key kind]))) key)
      kind = paint (openChild (Table.get? entries key) kind) es := by
  induction es generalizing entries with
  | nil => rfl
  | cons e rest ih =>
    have hchild : (e.beneath [.atKey key kind]).onChild
        (openChild (Table.get? entries key) kind) =
          (apply (openChild (Table.get? entries key) kind) e).tag := by
      rw [Edit.onChild_below rfl, Edit.below_beneath]
    have hkind : (apply (openChild (Table.get? entries key) kind) e).tag.kind = kind := by
      rw [kind_apply, kind_openChild]
    have hhead : (e.beneath [.atKey key kind]).head = .key key := rfl
    have hwants : (e.beneath [.atKey key kind]).wants = kind := rfl
    rw [List.map_cons, paintEntries_cons, ih, get?_strokeEntries, if_pos hhead, hwants, hchild,
      openChild_some, if_pos hkind, paint_cons]

theorem openChild_paint {t : Tag} (h : t.kind = .compound) (key : String) (kind : Kind)
    (es : List Edit) :
    openChild ((paint t (es.map (Edit.beneath [.atKey key kind]))).child? key) kind =
      paint (openChild (t.child? key) kind) es := by
  obtain ⟨table, rfl⟩ := Tag.exists_eq_compound h
  rw [paint_compound]
  exact openChild_paintEntries key kind table es

/-- The edits paint the child where nothing was before: as a whole, or through what is inside it. -/
inductive Restores (key : PathKey) (u : Tag) : List Edit → Prop
  | whole : Restores key u [.new [] key u]
  | within {es : List Edit} (hchildren : u.children ≠ [])
      (hpaint : paint (Tag.empty u.kind) es = u) :
      Restores key u (es.map (Edit.beneath [⟨key, u.kind⟩]))

variable {key : PathKey} {u : Tag} {es : List Edit}

theorem children_empty (k : Kind) : (Tag.empty k).children = [] := by cases k <;> rfl

theorem Restores.head (h : Restores key u es) : ∀ e ∈ es, e.head = key := by
  intro e he
  cases h with
  | whole => rw [List.mem_singleton.1 he]; rfl
  | within _ _ =>
    obtain ⟨d, -, rfl⟩ := List.mem_map.1 he
    rfl

theorem Restores.hits (h : Restores key u es) (hfits : key.Fits) : ∀ e ∈ es, e.Hits key :=
  fun e he => ⟨h.head e he, hfits⟩

theorem Restores.wants (h : Restores key u es) : ∀ e ∈ es, e.wants = u.kind := by
  intro e he
  cases h with
  | whole => rw [List.mem_singleton.1 he]; rfl
  | within _ _ =>
    obtain ⟨d, -, rfl⟩ := List.mem_map.1 he
    rfl

theorem Restores.ne_nil (h : Restores key u es) : es ≠ [] := by
  cases h with
  | whole => simp
  | @within inner hchildren hpaint =>
    intro hnil
    have hinner : inner = [] := by simpa using hnil
    rw [hinner] at hpaint
    refine hchildren ?_
    rw [← hpaint]
    exact children_empty _

/-- In a slot where nothing of the kind of the child is kept, the edits leave the child. -/
theorem Restores.strokes (h : Restores key u es) (hfits : key.Fits) {s : Slot}
    (hs : s.opened u.kind = Tag.empty u.kind) : s.strokes key es = ⟨some u.kind, u⟩ := by
  have hopened := Slot.strokes_opened (p := key) h.wants h.ne_nil s
  rw [hopened, hs]
  cases h with
  | whole =>
    have hhits : (Edit.new [] key u).Hits key := ⟨rfl, hfits⟩
    exact Slot.stroke_leaf hhits rfl _
  | @within inner _ hpaint =>
    have hdeepens : Slot.Deepens key u.kind (inner.map (Edit.beneath [⟨key, u.kind⟩])) := by
      constructor
      · intro e he
        obtain ⟨d, -, rfl⟩ := List.mem_map.1 he
        rfl
      · intro e he _
        obtain ⟨d, -, rfl⟩ := List.mem_map.1 he
        rfl
    have hbelow : Slot.editsBelow key (inner.map (Edit.beneath [⟨key, u.kind⟩])) = inner := by
      simp [Slot.editsBelow, List.filter_map, Function.comp_def, Edit.Hits, Edit.head_beneath,
        Edit.below_beneath, hfits]
    rw [hdeepens.strokes_eq, hbelow, hpaint]

def editsFor (es : PathKey → Tag → List Edit) (children : List (PathKey × Tag)) : List Edit :=
  children.flatMap fun c => es c.1 c.2

def RestoresAll (es : PathKey → Tag → List Edit) (children : List (PathKey × Tag)) : Prop :=
  ∀ key u, (key, u) ∈ children → Restores key u (es key u)

variable {es : PathKey → Tag → List Edit} {children : List (PathKey × Tag)}

theorem mem_editsFor {e : Edit} (h : e ∈ editsFor es children) :
    ∃ key u, (key, u) ∈ children ∧ e ∈ es key u := by
  obtain ⟨⟨key, u⟩, hchild, he⟩ := List.mem_flatMap.1 h
  exact ⟨key, u, hchild, he⟩

theorem RestoresAll.tail {c : PathKey × Tag} (h : RestoresAll es (c :: children)) :
    RestoresAll es children := fun key u hchild => h key u (List.mem_cons_of_mem _ hchild)

theorem RestoresAll.filter_of_not_mem (h : RestoresAll es children)
    (hkey : key ∉ children.map Prod.fst) :
    (editsFor es children).filter (fun e => decide (e.Hits key)) = [] := by
  rw [List.filter_eq_nil_iff]
  intro e he hhits
  obtain ⟨l, v, hchild, hmem⟩ := mem_editsFor he
  obtain ⟨hhead, -⟩ := of_decide_eq_true hhits
  rw [(h l v hchild).head e hmem] at hhead
  exact hkey (List.mem_map.2 ⟨(l, v), hchild, hhead⟩)

/-- Of all the edits, those of one child are the ones at its key. -/
theorem RestoresAll.filter_of_mem (h : RestoresAll es children)
    (hnodup : (children.map Prod.fst).Nodup) (hfits : key.Fits) (hchild : (key, u) ∈ children) :
    (editsFor es children).filter (fun e => decide (e.Hits key)) = es key u := by
  induction children with
  | nil => simp at hchild
  | cons c rest ih =>
    obtain ⟨l, v⟩ := c
    obtain ⟨hfresh, hrest⟩ := List.nodup_cons.1 hnodup
    have hcons : editsFor es ((l, v) :: rest) = es l v ++ editsFor es rest := rfl
    rw [hcons, List.filter_append]
    rcases List.mem_cons.1 hchild with heq | hmem
    · cases heq
      have hown : (es key u).filter (fun e => decide (e.Hits key)) = es key u :=
        List.filter_eq_self.2 fun e he =>
          decide_eq_true ((h key u (by simp)).hits hfits e he)
      rw [hown, h.tail.filter_of_not_mem hfresh, List.append_nil]
    · have hne : l ≠ key := fun hlk => hfresh (List.mem_map.2 ⟨(key, u), hmem, hlk.symm⟩)
      have hother : (es l v).filter (fun e => decide (e.Hits key)) = [] :=
        List.filter_eq_nil_iff.2 fun e he hhits =>
          hne (((h l v (by simp)).head e he).symm.trans (of_decide_eq_true hhits).1)
      rw [hother, List.nil_append, ih h.tail hrest hmem]

theorem sorted_paintEntries {entries : List (String × Tag)} (es : List Edit)
    (h : Table.Sorted entries) : Table.Sorted (paintEntries entries es) := by
  induction es generalizing entries with
  | nil => exact h
  | cons e rest ih =>
    rw [paintEntries_cons]
    refine ih ?_
    unfold strokeEntries
    split
    · exact h
    · exact Table.sorted_insert _ _ h

theorem paint_compound_children {entries : List (String × Tag)} (hsorted : Table.Sorted entries)
    (h : RestoresAll es (Tag.compound entries).children) :
    paint (.compound []) (editsFor es (Tag.compound entries).children) = .compound entries := by
  have hkeys : (Tag.compound entries).children.map Prod.fst = entries.map (PathKey.key ·.1) := by
    simp [Tag.children, Function.comp_def]
  have hnodup : ((Tag.compound entries).children.map Prod.fst).Nodup := by
    rw [hkeys]
    refine List.pairwise_map.2 (hsorted.imp fun hbefore heq => ?_)
    exact KeyOrder.ne_of_before hbefore (PathKey.key.inj heq)
  rw [paint_compound]
  congr 1
  refine Table.eq_of_get?_eq (sorted_paintEntries _ List.Pairwise.nil) hsorted fun key => ?_
  apply childSlot_injective
  have heditsAt (fs : List Edit) : editsAt key fs =
      fs.filter fun e => decide (e.Hits (.key key)) := by simp [editsAt]
  rw [childSlot_paintEntries, heditsAt, Table.get?_nil]
  cases hget : Table.get? entries key with
  | some u =>
    have hchild := Tag.mem_children_compound (Table.mem_of_get?_eq_some hget)
    rw [h.filter_of_mem hnodup (PathKey.fits_key key) hchild]
    exact (h _ _ hchild).strokes (PathKey.fits_key key) rfl
  | none =>
    rw [h.filter_of_not_mem ?_]
    · rfl
    · intro hmem
      obtain ⟨e, he, heq⟩ := List.mem_map.1 (hkeys ▸ hmem)
      have hentry : (key, e.2) ∈ entries := by
        rw [← PathKey.key.inj heq]
        exact he
      simp [Table.get?_of_mem hsorted hentry] at hget

theorem RestoresAll.wants {k : Kind} (h : RestoresAll es children)
    (hkind : ∀ key u, (key, u) ∈ children → u.kind = k) :
    ∀ e ∈ editsFor es children, e.wants = k := by
  intro e he
  obtain ⟨key, u, hchild, hmem⟩ := mem_editsFor he
  rw [(h key u hchild).wants e hmem, hkind key u hchild]

theorem RestoresAll.ne_nil (h : RestoresAll es children) (hne : children ≠ []) :
    editsFor es children ≠ [] := by
  obtain ⟨⟨key, u⟩, rest, rfl⟩ := List.exists_cons_of_ne_nil hne
  intro hnil
  exact (h key u (by simp)).ne_nil (List.append_eq_nil_iff.1 hnil).1

variable {element : Option Kind} {items : List Tag}

theorem nodup_list_keys : ((Tag.list element items).children.map Prod.fst).Nodup := by
  have hkeys : (Tag.list element items).children.map Prod.fst =
      (List.range' 0 items.length).map PathKey.index := by
    rw [← List.zipIdx_map_snd 0 items, Tag.children, List.map_map, List.map_map]
    rfl
  rw [hkeys]
  refine List.pairwise_map.2 (List.Pairwise.imp ?_ List.nodup_range')
  exact fun hne heq => hne (PathKey.index.inj heq)

theorem editsByIndex_editsFor (h : RestoresAll es (Tag.list element items).children) :
    TypedList.editsByIndex (editsFor es (Tag.list element items).children) =
      editsFor es (Tag.list element items).children := by
  refine List.filter_eq_self.2 fun e he => ?_
  obtain ⟨key, u, hchild, hmem⟩ := mem_editsFor he
  obtain ⟨i, rfl, -⟩ := (Tag.mem_children_list _).1 hchild
  rw [(h _ u hchild).head e hmem]

theorem reach_editsFor (hcount : (Tag.list element items).Counted)
    (h : RestoresAll es (Tag.list element items).children) :
    TypedList.reach (editsFor es (Tag.list element items).children) = items.length := by
  apply Nat.le_antisymm
  · refine TypedList.reach_le fun e he i hhead => ?_
    obtain ⟨key, u, hchild, hmem⟩ := mem_editsFor he
    obtain ⟨j, rfl, hget⟩ := (Tag.mem_children_list _).1 hchild
    rw [(h _ u hchild).head e hmem, PathKey.index.injEq] at hhead
    rw [← hhead]
    exact (List.getElem?_eq_some_iff.1 hget).1
  · rcases Nat.eq_zero_or_pos items.length with hzero | hpos
    · omega
    · -- the last element is reached
      have hlast : items[items.length - 1]? = some items[items.length - 1] :=
        List.getElem?_eq_getElem (by omega)
      have hchild := (Tag.mem_children_list element).2 ⟨_, rfl, hlast⟩
      obtain ⟨e, he⟩ := List.exists_mem_of_ne_nil _ (h _ _ hchild).ne_nil
      have hmem : e ∈ editsFor es (Tag.list element items).children :=
        List.mem_flatMap.2 ⟨(_, _), hchild, he⟩
      have hreach := TypedList.lt_reach hmem ((h _ _ hchild).hits (hcount.fits hchild) e he)
      omega

theorem paint_list_children (hsame : TypedList.Homogeneous ⟨element, items⟩)
    (hcount : (Tag.list element items).Counted) (hne : items ≠ [])
    (h : RestoresAll es (Tag.list element items).children) :
    paint (.list none []) (editsFor es (Tag.list element items).children) =
      .list element items := by
  obtain ⟨k, rfl⟩ := Option.isSome_iff_exists.1 (hsame.2 hne)
  have hkind : ∀ key u, (key, u) ∈ (Tag.list (some k) items).children → u.kind = k := by
    intro key u hchild
    obtain ⟨i, -, hget⟩ := (Tag.mem_children_list _).1 hchild
    exact Option.some.inj (hsame.1 u (List.mem_of_getElem? hget))
  have hwants := h.wants hkind
  have hedits : editsFor es (Tag.list (some k) items).children ≠ [] := by
    refine h.ne_nil fun hnil => hne ?_
    simpa [Tag.children] using hnil
  suffices hlist : TypedList.nil.strokes (editsFor es (Tag.list (some k) items).children) =
      ⟨some k, items⟩ by
    have hpaint := TypedList.paint_list TypedList.nil
      (editsFor es (Tag.list (some k) items).children)
    rw [hlist] at hpaint
    exact hpaint
  apply TypedList.ext_slots
  · rw [TypedList.length_strokes, reach_editsFor hcount h]
    exact Nat.zero_max _
  · intro i
    rw [TypedList.slotAt_strokes, editsByIndex_editsFor h, Slot.strokes_opened hwants hedits,
      Slot.strokes_filter hwants]
    have hopened : (TypedList.nil.slotAt i).opened k = Tag.empty k := rfl
    rw [hopened]
    cases hget : items[i]? with
    | some u =>
      have hchild := (Tag.mem_children_list (some k)).2 ⟨i, rfl, hget⟩
      have hfits := hcount.fits hchild
      have huk := hkind _ u hchild
      rw [h.filter_of_mem nodup_list_keys hfits hchild,
        (h _ u hchild).strokes hfits (by simp [huk])]
      simp [TypedList.slotAt, hget, huk]
    | none =>
      rw [h.filter_of_not_mem ?_]
      · simp [TypedList.slotAt, hget, Slot.strokes]
      · intro hmem
        obtain ⟨⟨key, u⟩, hchild, hkey⟩ := List.mem_map.1 hmem
        obtain ⟨j, rfl, hj⟩ := (Tag.mem_children_list _).1 hchild
        rw [PathKey.index.inj hkey, hget] at hj
        contradiction

theorem Restores.eq_whole {key : PathKey} {u : Tag} {es : List Edit} (h : Restores key u es)
    (hchildren : u.children = []) : es = [.new [] key u] := by
  cases h with
  | whole => rfl
  | within hne _ => exact absurd hchildren hne

theorem writeAt_length {α : Type} (zero : α) (values : List α) (v : α) :
    writeAt zero values values.length v = values ++ [v] := by
  simp [writeAt]

/-- Elements that are written in turn, each behind the ones before it. -/
theorem writeAll_zipIdx {α : Type} (zero : α) (written rest : List α) :
    Overwriting.all (fun i v vs => writeAt zero vs i v) written
      ((rest.zipIdx written.length).map fun e => (e.2, e.1)) = written ++ rest := by
  induction rest generalizing written with
  | nil => simp [Overwriting.all]
  | cons v rest ih =>
    rw [List.zipIdx_cons, List.map_cons, Overwriting.all_cons, writeAt_length]
    have hlength : written.length + 1 = (written ++ [v]).length := by simp
    rw [hlength, ih, List.append_assoc, List.singleton_append]

namespace IsArray

variable {α : Type} {array : List α → Tag} {make : α → Tag} {read : Tag → Option α} {zero : α}

theorem read_make (h : IsArray array make read zero) (v : α) : read (make v) = some v := by
  cases h <;> rfl

theorem children_make (h : IsArray array make read zero) (v : α) : (make v).children = [] := by
  cases h <;> rfl

theorem children_eq (h : IsArray array make read zero) (values : List α) :
    (array values).children = values.zipIdx.map fun e => (.index e.2, make e.1) := by
  cases h <;> rfl

theorem paint_children (harray : IsArray array make read zero) {values : List α}
    (hcount : (array values).Counted) (h : RestoresAll es (array values).children) :
    paint (array []) (editsFor es (array values).children) = array values := by
  have hwhole : editsFor es (array values).children =
      values.zipIdx.map fun e => .new [] (.index e.2) (make e.1) := by
    rw [harray.children_eq] at h ⊢
    unfold editsFor
    rw [List.flatMap_map, List.map_eq_flatMap, List.flatMap_def, List.flatMap_def]
    refine congrArg List.flatten (List.map_congr_left fun e he => ?_)
    exact (h _ _ (List.mem_map_of_mem he)).eq_whole (harray.children_make e.1)
  have helements : elements read (editsFor es (array values).children) =
      values.zipIdx.map fun e => (e.2, e.1) := by
    rw [hwhole, elements, List.filterMap_map, ← List.filterMap_eq_map']
    refine List.filterMap_congr fun e he => ?_
    have hchild : (.index e.2, make e.1) ∈ (array values).children := by
      rw [harray.children_eq]
      exact List.mem_map_of_mem he
    have hfits : e.2 + 1 < UInt64.size := hcount.fits hchild
    simp [Edit.element?, Edit.new, harray.read_make, hfits]
  rw [harray.paint_eq, helements]
  exact congrArg array (writeAll_zipIdx zero [] values)

end IsArray

/-- A compound, or a list or an array that is not empty, is painted from nothing by edits that
restore its children. -/
theorem paint_children {t : Tag} (horder : t.InOrder) (hcount : t.Counted)
    (hfull : t.kind = .compound ∨ t.children ≠ []) (h : RestoresAll es t.children) :
    paint (Tag.empty t.kind) (editsFor es t.children) = t := by
  cases t with
  | compound entries => exact paint_compound_children horder h
  | list element items =>
    refine paint_list_children horder hcount (fun hnil => ?_) h
    subst hnil
    rcases hfull with hkind | hne
    · contradiction
    · exact hne rfl
  | byteArray _ => exact IsArray.byte.paint_children hcount h
  | intArray _ => exact IsArray.int.paint_children hcount h
  | longArray _ => exact IsArray.long.paint_children hcount h
  | _ =>
    rcases hfull with hkind | hne
    · contradiction
    · exact absurd rfl hne

end Paint

end BlockConvert
