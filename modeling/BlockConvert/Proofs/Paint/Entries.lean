import BlockConvert.Proofs.Paint.Slot

set_option autoImplicit false

/-!
# Edits on the entries of a compound

The children of a compound are slots, each of which takes the edits under its key. Entries that
edits have painted come out the same when the edits are applied again, if that is so of every slot.
This does not need the entries to be in order, since each edit writes over its own entry.
-/

namespace BlockConvert

namespace Paint

def editsAt (key : String) (es : List Edit) : List Edit :=
  es.filter fun e => decide (e.head = .key key)

def keysReached (es : List Edit) : List String :=
  es.filterMap fun e => match e.head with
    | .key k => some k
    | .index _ => none

def paintEntries (entries : List (String × Tag)) (es : List Edit) : List (String × Tag) :=
  es.foldl strokeEntries entries

theorem paintEntries_cons (entries : List (String × Tag)) (e : Edit) (es : List Edit) :
    paintEntries entries (e :: es) = paintEntries (strokeEntries entries e) es := rfl

def childSlot : Option Tag → Slot
  | none => ⟨none, .byte 0⟩
  | some t => ⟨some t.kind, t⟩

variable {entries : List (String × Tag)} {e : Edit} {es : List Edit} {key : String}

theorem paint_compound (entries : List (String × Tag)) (es : List Edit) :
    paint (.compound entries) es = .compound (paintEntries entries es) :=
  paint_eq_foldl apply_compound entries es

theorem openChild_some (t : Tag) (k : Kind) :
    openChild (some t) k = if t.kind = k then t else Tag.empty k := by
  by_cases h : t.kind = k <;> simp [openChild, Option.filter_some, h]

theorem opened_childSlot (child : Option Tag) (k : Kind) :
    (childSlot child).opened k = openChild child k := by
  cases child with
  | none => rfl
  | some t => simp [childSlot, Slot.opened, openChild_some]

theorem childSlot_injective {c d : Option Tag} (h : childSlot c = childSlot d) : c = d := by
  cases c <;> cases d <;> simp [childSlot] at h ⊢
  exact h.2

theorem kind_openChild (child : Option Tag) (k : Kind) : (openChild child k).kind = k := by
  cases child with
  | none => exact Tag.kind_empty k
  | some t =>
    rw [openChild_some]
    split
    · assumption
    · exact Tag.kind_empty k

theorem get?_strokeEntries (entries : List (String × Tag)) (e : Edit) (key : String) :
    Table.get? (strokeEntries entries e) key =
      if e.head = .key key then
        some (e.onChild (openChild (Table.get? entries key) e.wants))
      else Table.get? entries key := by
  unfold strokeEntries
  cases e.head with
  | index i => simp
  | key k =>
    simp only [Table.get?_insert, PathKey.key.injEq]
    by_cases hkey : k = key
    · subst hkey
      simp
    · simp [hkey]

theorem childSlot_strokeEntries (h : e.head = .key key) :
    childSlot (Table.get? (strokeEntries entries e) key) =
      (childSlot (Table.get? entries key)).stroke (.key key) e := by
  rw [get?_strokeEntries, if_pos h, childSlot, Slot.stroke, if_pos (Edit.hits_key.2 h),
    opened_childSlot, Edit.kind_onChild e (kind_openChild _ _)]

theorem childSlot_paintEntries (entries : List (String × Tag)) (es : List Edit) (key : String) :
    childSlot (Table.get? (paintEntries entries es) key) =
      (childSlot (Table.get? entries key)).strokes (.key key) (editsAt key es) := by
  induction es generalizing entries with
  | nil => rfl
  | cons e rest ih =>
    rw [paintEntries_cons, ih]
    by_cases h : e.head = .key key
    · rw [childSlot_strokeEntries h]
      simp [editsAt, h, Slot.strokes_cons]
    · simp [editsAt, h, get?_strokeEntries]

theorem mem_keysReached_cons :
    key ∈ keysReached (e :: es) ↔ e.head = .key key ∨ key ∈ keysReached es := by
  unfold keysReached
  cases h : e.head <;> simp [h, eq_comm]

theorem get?_paintEntries_of_not_mem (h : key ∉ keysReached es) :
    Table.get? (paintEntries entries es) key = Table.get? entries key := by
  induction es generalizing entries with
  | nil => rfl
  | cons e rest ih =>
    rw [mem_keysReached_cons, not_or] at h
    rw [paintEntries_cons, ih h.2, get?_strokeEntries, if_neg h.1]

theorem get?_paintEntries_of_mem (entries : List (String × Tag)) (h : key ∈ keysReached es) :
    ∃ t, Table.get? (paintEntries entries es) key = some t := by
  induction es generalizing entries with
  | nil => simp [keysReached] at h
  | cons e rest ih =>
    rw [paintEntries_cons]
    by_cases hrest : key ∈ keysReached rest
    · exact ih _ hrest
    · have hhead := (mem_keysReached_cons.1 h).resolve_right hrest
      exact ⟨_, by rw [get?_paintEntries_of_not_mem hrest, get?_strokeEntries, if_pos hhead]⟩

/-- A compound that edits have painted is written over with what they leave under each key. -/
theorem paintEntries_eq_all (entries : List (String × Tag)) (final : String → Tag)
    (h : ∀ k ∈ keysReached es, Table.get? (paintEntries entries es) k = some (final k)) :
    paintEntries entries es =
      Overwriting.all Table.insert entries ((keysReached es).map fun k => (k, final k)) := by
  induction es generalizing entries with
  | nil => rfl
  | cons e rest ih =>
    rw [paintEntries_cons] at h ⊢
    rw [ih _ fun k hk => h k (mem_keysReached_cons.2 (.inr hk))]
    cases hhead : e.head with
    | index i => simp [keysReached, strokeEntries, hhead]
    | key k =>
      have hlast := h k (mem_keysReached_cons.2 (.inl hhead))
      have hkeys : keysReached (e :: rest) = k :: keysReached rest := by
        simp [keysReached, hhead]
      rw [hkeys, List.map_cons, Overwriting.all_cons]
      simp only [strokeEntries, hhead]
      by_cases hrest : k ∈ keysReached rest
      · -- what the edit writes here is written over later
        have hmem : k ∈ ((keysReached rest).map fun k => (k, final k)).map Prod.fst := by
          simpa using hrest
        rw [Table.insert_overwriting.all_write _ _ hmem,
          Table.insert_overwriting.all_write _ _ hmem]
      · rw [get?_paintEntries_of_not_mem hrest, get?_strokeEntries, if_pos hhead] at hlast
        rw [Option.some.inj hlast]

theorem paintEntries_idempotent (h : ∀ s key,
      (Slot.strokes (.key key) s (editsAt key es)).strokes (.key key) (editsAt key es) =
        s.strokes (.key key) (editsAt key es)) :
    paintEntries (paintEntries entries es) es = paintEntries entries es := by
  have hget : ∀ key, Table.get? (paintEntries (paintEntries entries es) es) key =
      Table.get? (paintEntries entries es) key := by
    intro key
    apply childSlot_injective
    rw [childSlot_paintEntries, childSlot_paintEntries, h]
  have hsome : ∃ final : String → Tag, ∀ k ∈ keysReached es,
      Table.get? (paintEntries entries es) k = some (final k) := by
    refine ⟨fun k => (Table.get? (paintEntries entries es) k).getD default, fun k hk => ?_⟩
    obtain ⟨t, ht⟩ := get?_paintEntries_of_mem entries hk
    simp [ht]
  obtain ⟨final, hfinal⟩ := hsome
  have hfirst := paintEntries_eq_all entries final hfinal
  have hsecond := paintEntries_eq_all (paintEntries entries es) final
    fun k hk => (hget k).trans (hfinal k hk)
  rw [hsecond, hfirst, Table.insert_overwriting.all_idempotent]

end Paint

end BlockConvert
