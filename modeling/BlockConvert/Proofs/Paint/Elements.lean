import BlockConvert.Proofs.Paint.Slot

set_option autoImplicit false

/-!
# Edits on the elements of a list or an array

The elements of a list are slots too, also those beyond its end, and every edit at an index touches
all of them, since it may retype the list. A list is made up of its element kind, its length and its
slots, and none of the three changes when edits are applied again. The elements of an array are
written over.
-/

namespace BlockConvert

namespace TypedList

variable {l m : TypedList} {e : Edit} {es : List Edit}

/-- What a list shows at an index: its element there, or what it would be padded with. -/
def slotAt (l : TypedList) (index : Nat) : Slot :=
  ⟨l.element, l.items[index]?.getD (l.element.elim (.byte 0) Tag.empty)⟩

def editsByIndex (es : List Edit) : List Edit :=
  es.filter fun e => match e.head with
    | .index _ => true
    | .key _ => false

def strokes (l : TypedList) (es : List Edit) : TypedList := es.foldl stroke l

theorem strokes_cons (l : TypedList) (e : Edit) (es : List Edit) :
    l.strokes (e :: es) = (l.stroke e).strokes es := rfl

theorem paint_list (l : TypedList) (es : List Edit) :
    Paint.paint l.toTag es = (l.strokes es).toTag :=
  Paint.paint_eq_foldl Paint.apply_list l es

theorem ext_slots (hlength : l.items.length = m.items.length)
    (hslots : ∀ i, l.slotAt i = m.slotAt i) : l = m := by
  have helement : l.element = m.element := congrArg Slot.element (hslots 0)
  have hitems : l.items = m.items := by
    apply List.ext_getElem hlength
    intro i hl hm
    have htag := congrArg Slot.tag (hslots i)
    simpa [slotAt, List.getElem?_eq_getElem hl, List.getElem?_eq_getElem hm] using htag
  cases l
  cases m
  simp_all

/-- A list that is opened for a kind opens all its slots for that kind. -/
theorem slotAt_padTo (l : TypedList) (length : Nat) (k : Kind) (index : Nat) :
    (l.padTo length k).slotAt index = ⟨some k, (l.slotAt index).opened k⟩ := by
  have hpad (items : List Tag) :
      (items ++ List.replicate (length - items.length) (Tag.empty k))[index]?.getD (Tag.empty k) =
        items[index]?.getD (Tag.empty k) := by
    by_cases h : index < items.length
    · rw [List.getElem?_append_left h]
    · have hle : items.length ≤ index := by omega
      rw [List.getElem?_append_right hle, List.getElem?_eq_none hle, List.getElem?_replicate]
      split <;> rfl
  rw [slotAt, padTo_element]
  simp only [padTo, Option.elim_some, hpad, coerce, Slot.opened, slotAt]
  by_cases h : l.element = some k
  · simp [h]
  · simp only [h, if_false, List.getElem?_map]
    cases l.items[index]? <;> rfl

theorem slotAt_coerce (l : TypedList) (k : Kind) (index : Nat) :
    (l.coerce k).slotAt index = ⟨some k, (l.slotAt index).opened k⟩ := by
  have hpad : l.padTo 0 k = l.coerce k := by simp [padTo]
  rw [← hpad, slotAt_padTo]

theorem stroke_index {i : Nat} (h : e.head = .index i) (hfits : e.head.Fits) (l : TypedList) :
    l.stroke e = ⟨some e.wants, (l.padTo (i + 1) e.wants).items.set i
      (e.onChild ((l.slotAt i).opened e.wants))⟩ := by
  have hchild : (l.padTo (i + 1) e.wants).items[i]?.getD (Tag.empty e.wants) =
      (l.slotAt i).opened e.wants := by
    have hslot := congrArg Slot.tag (slotAt_padTo l (i + 1) e.wants i)
    rwa [slotAt, padTo_element] at hslot
  rw [stroke_of_fits l h hfits, hchild, padTo_element]

theorem slotAt_stroke {i : Nat} (h : e.head = .index i) (l : TypedList) (j : Nat) :
    (l.stroke e).slotAt j = (l.slotAt j).stroke (.index j) e := by
  by_cases hfits : e.head.Fits
  · have hslot := congrArg Slot.tag (slotAt_padTo l (i + 1) e.wants j)
    rw [slotAt, padTo_element] at hslot
    rw [stroke_index h hfits, slotAt, Slot.stroke]
    by_cases hij : i = j
    · subst hij
      simp [Edit.hits_index h, hfits, l.lt_length_padTo i e.wants]
    · simpa [Edit.hits_index h, hij] using hslot
  · have hmiss : ¬e.Hits (.index j) := fun hhits => hfits ((Edit.hits_index h).1 hhits).2
    rw [stroke_of_not_fits l hfits, slotAt_coerce, Slot.stroke, if_neg hmiss]

theorem slotAt_strokes (l : TypedList) (es : List Edit) (index : Nat) :
    (l.strokes es).slotAt index = (l.slotAt index).strokes (.index index) (editsByIndex es) := by
  induction es generalizing l with
  | nil => rfl
  | cons e rest ih =>
    rw [strokes_cons, ih]
    cases h : e.head with
    | index i => simp [editsByIndex, h, slotAt_stroke h, Slot.strokes_cons]
    | key k => simp [editsByIndex, h, stroke_of_key]

def reach (es : List Edit) : Nat :=
  es.foldr (fun e n => match e.head with
    | .index i => if e.head.Fits then max (i + 1) n else n
    | .key _ => n) 0

theorem reach_cons_of_fits {i : Nat} (hhead : e.head = .index i) (hfits : e.head.Fits) :
    reach (e :: es) = max (i + 1) (reach es) := by
  simp only [reach, List.foldr_cons, hhead, if_pos (hhead ▸ hfits : (PathKey.index i).Fits)]

theorem reach_cons_of_not_fits (hfits : ¬e.head.Fits) : reach (e :: es) = reach es := by
  simp only [reach, List.foldr_cons, if_neg hfits]
  cases e.head <;> rfl

theorem reach_cons_of_key {k : String} (hhead : e.head = .key k) :
    reach (e :: es) = reach es := by
  simp only [reach, List.foldr_cons, hhead]

theorem reach_le_reach_cons (e : Edit) (es : List Edit) : reach es ≤ reach (e :: es) := by
  cases hhead : e.head with
  | key k => exact Nat.le_of_eq (reach_cons_of_key hhead).symm
  | index i =>
    by_cases hfits : e.head.Fits
    · exact (reach_cons_of_fits hhead hfits).symm ▸ Nat.le_max_right _ _
    · exact Nat.le_of_eq (reach_cons_of_not_fits hfits).symm

theorem lt_reach {i : Nat} (he : e ∈ es) (hhits : e.Hits (.index i)) : i < reach es := by
  induction es with
  | nil => simp at he
  | cons d rest ih =>
    rcases List.mem_cons.1 he with rfl | hmem
    · obtain ⟨hhead, hfits⟩ := hhits
      rw [reach_cons_of_fits hhead (hhead.symm ▸ hfits)]
      exact Nat.lt_of_lt_of_le (Nat.lt_succ_self i) (Nat.le_max_left _ _)
    · exact Nat.lt_of_lt_of_le (ih hmem) (reach_le_reach_cons d rest)

theorem reach_le {n : Nat} (h : ∀ e ∈ es, ∀ i, e.head = .index i → i < n) : reach es ≤ n := by
  induction es with
  | nil => exact Nat.zero_le n
  | cons e rest ih =>
    have hrest : reach rest ≤ n := ih fun d hd => h d (List.mem_cons_of_mem _ hd)
    cases hhead : e.head with
    | key _ => rwa [reach_cons_of_key hhead]
    | index i =>
      by_cases hfits : e.head.Fits
      · rw [reach_cons_of_fits hhead hfits]
        exact Nat.max_le.2 ⟨h e (by simp) i hhead, hrest⟩
      · rwa [reach_cons_of_not_fits hfits]

theorem length_strokes (l : TypedList) (es : List Edit) :
    (l.strokes es).items.length = max l.items.length (reach es) := by
  induction es generalizing l with
  | nil => simp [strokes, reach]
  | cons e rest ih =>
    rw [strokes_cons, ih]
    cases h : e.head with
    | key k => rw [reach_cons_of_key h, stroke_of_key l h]
    | index i =>
      by_cases hfits : e.head.Fits
      · rw [stroke_index h hfits, List.length_set, padTo_length, reach_cons_of_fits h hfits]
        omega
      · rw [reach_cons_of_not_fits hfits, stroke_of_not_fits l hfits, coerce_length]

theorem strokes_idempotent (h : ∀ s i,
      (Slot.strokes (.index i) s (editsByIndex es)).strokes (.index i) (editsByIndex es) =
        s.strokes (.index i) (editsByIndex es)) :
    (l.strokes es).strokes es = l.strokes es := by
  apply ext_slots
  · simp only [length_strokes]
    omega
  · intro i
    simp only [slotAt_strokes, h]

end TypedList

namespace Paint

variable {α : Type}

theorem length_writeAt (zero : α) (values : List α) (index : Nat) (value : α) :
    (writeAt zero values index value).length = max values.length (index + 1) := by
  simp only [writeAt, List.length_set, List.length_append, List.length_replicate]
  omega

theorem getElem?_writeAt (zero : α) (values : List α) (index : Nat) (value : α) (other : Nat) :
    (writeAt zero values index value)[other]? =
      if other = index then some value
      else if other < values.length then values[other]?
      else if other < index then some zero else none := by
  rw [writeAt, List.getElem?_set, if_pos (lt_length_padded zero values index),
    List.getElem?_append, List.getElem?_replicate]
  by_cases hother : other = index
  · simp [hother]
  · simp only [hother, Ne.symm hother, if_false]
    split
    · rfl
    · split <;> split <;> first | rfl | omega

theorem writeAt_overwriting (zero : α) :
    Overwriting fun index value values => writeAt zero values index value := by
  constructor
  · intro k v w values
    apply List.ext_getElem?
    intro i
    simp only [getElem?_writeAt, length_writeAt]
    grind
  · intro k l v w values hkl
    apply List.ext_getElem?
    intro i
    simp only [getElem?_writeAt, length_writeAt]
    grind

def elements {α : Type} (read : Tag → Option α) (es : List Edit) : List (Nat × α) :=
  es.filterMap (Edit.element? read)

variable {array : List α → Tag} {make : α → Tag} {read : Tag → Option α} {zero : α}

theorem IsArray.paint_eq (h : IsArray array make read zero) (values : List α) (es : List Edit) :
    paint (array values) es =
      array (Overwriting.all (fun i v vs => writeAt zero vs i v) values (elements read es)) := by
  rw [paint_eq_foldl fun vs e => (h.apply_eq vs e).1, Overwriting.all, elements,
    List.foldl_filterMap]
  congr 2
  funext values e
  cases e.element? read <;> rfl

theorem IsArray.paint_idempotent (h : IsArray array make read zero) (values : List α)
    (es : List Edit) : paint (paint (array values) es) es = paint (array values) es := by
  rw [h.paint_eq, h.paint_eq, (writeAt_overwriting zero).all_idempotent]

end Paint

end BlockConvert
