import BlockConvert.Proofs.Paint.Stroke

set_option autoImplicit false

/-!
# What edits leave in one slot

A slot is the place of a child with the kind of tag that is kept there. An edit at another index of
a list touches the slot as well, since it may retype the list. After a run of edits the slot has
either forgotten what it held before, because a leaf was written there or the kind was changed, or
it was only painted below, by edits that all want the same kind.
-/

namespace BlockConvert

namespace Paint

def paint (t : Tag) (es : List Edit) : Tag := es.foldl (fun t e => (apply t e).tag) t

theorem paint_cons (t : Tag) (e : Edit) (es : List Edit) :
    paint t (e :: es) = paint (apply t e).tag es := rfl

theorem paint_append (t : Tag) (es fs : List Edit) :
    paint t (es ++ fs) = paint (paint t es) fs := List.foldl_append

/-- Edits on a tag of one form, where an edit only changes what the tag is made of. -/
theorem paint_eq_foldl {σ : Type} {form : σ → Tag} {step : σ → Edit → σ}
    (h : ∀ x e, (apply (form x) e).tag = form (step x e)) (x : σ) (es : List Edit) :
    paint (form x) es = form (es.foldl step x) := by
  induction es generalizing x with
  | nil => rfl
  | cons e rest ih => rw [paint_cons, h, ih, List.foldl_cons]

theorem applyAll_tag (root : Tag) (es : List Edit) : (applyAll root es).1 = paint root es := by
  induction es generalizing root with
  | nil => rfl
  | cons e rest ih => exact ih (apply root e).tag

end Paint

/-- The place of a child and the kind of tag that it is for. -/
structure Slot where
  element : Option Kind
  tag : Tag

namespace Slot

def opened (s : Slot) (k : Kind) : Tag := if s.element = some k then s.tag else Tag.empty k

/-- The slot at a key or index after an edit on one of the slots. -/
def stroke (p : PathKey) (s : Slot) (e : Edit) : Slot :=
  ⟨some e.wants, if e.Hits p then e.onChild (s.opened e.wants) else s.opened e.wants⟩

def strokes (p : PathKey) (s : Slot) (es : List Edit) : Slot := es.foldl (stroke p) s

/-- What the slot holds after the edits does not depend on what it held before. -/
def Settles (p : PathKey) (es : List Edit) : Prop :=
  ∀ s s' : Slot, s.strokes p es = s'.strokes p es

/-- All edits want one kind, and those at the slot go on below it. -/
structure Deepens (p : PathKey) (k : Kind) (es : List Edit) : Prop where
  wants : ∀ e ∈ es, e.wants = k
  below : ∀ e ∈ es, e.Hits p → e.isLeaf = false

/-- The edits at the slot as its child meets them. -/
def editsBelow (p : PathKey) (es : List Edit) : List Edit :=
  (es.filter fun e => decide (e.Hits p)).map Edit.below

variable {p : PathKey} {k : Kind} {e : Edit} {es : List Edit}

theorem strokes_cons (s : Slot) : s.strokes p (e :: es) = (s.stroke p e).strokes p es := rfl

@[simp] theorem opened_self (t : Tag) : (⟨some k, t⟩ : Slot).opened k = t := if_pos rfl

theorem opened_other {s : Slot} {l : Kind} (helement : s.element = some l) (h : l ≠ k) :
    s.opened k = Tag.empty k := by
  simp [opened, helement, h]

theorem stroke_leaf (hhits : e.Hits p) (hleaf : e.isLeaf = true) (s : Slot) :
    s.stroke p e = ⟨some e.wants, e.value⟩ := by
  rw [stroke, if_pos hhits, Edit.onChild_leaf hleaf]

theorem Deepens.tail (h : Deepens p k (e :: es)) : Deepens p k es :=
  ⟨fun f hf => h.wants f (List.mem_cons_of_mem _ hf),
    fun f hf => h.below f (List.mem_cons_of_mem _ hf)⟩

/-- Edits that want one kind see of a slot only the tag that they open. -/
theorem strokes_opened (h : ∀ e ∈ es, e.wants = k) (hne : es ≠ []) (s : Slot) :
    s.strokes p es = (⟨some k, s.opened k⟩ : Slot).strokes p es := by
  cases es with
  | nil => exact absurd rfl hne
  | cons e rest =>
    have hwants := h e (by simp)
    simp only [strokes_cons, stroke, hwants, opened_self]

/-- Edits at other indexes, if they want the kind that is kept in the slot, change nothing there. -/
theorem strokes_filter (h : ∀ e ∈ es, e.wants = k) (t : Tag) :
    (⟨some k, t⟩ : Slot).strokes p es =
      (⟨some k, t⟩ : Slot).strokes p (es.filter fun e => decide (e.Hits p)) := by
  induction es generalizing t with
  | nil => rfl
  | cons e rest ih =>
    have hwants := h e (by simp)
    have hrest : ∀ e ∈ rest, e.wants = k := fun f hf => h f (List.mem_cons_of_mem _ hf)
    rw [strokes_cons, stroke, hwants, opened_self, ih hrest]
    by_cases hhits : e.Hits p
    · simp [hhits, strokes_cons, stroke, hwants]
    · simp [hhits]

theorem Deepens.strokes_opened (h : Deepens p k es) (hne : es ≠ []) (s : Slot) :
    s.strokes p es = (⟨some k, s.opened k⟩ : Slot).strokes p es :=
  Slot.strokes_opened h.wants hne s

theorem Deepens.strokes_eq (h : Deepens p k es) (t : Tag) :
    (⟨some k, t⟩ : Slot).strokes p es = ⟨some k, Paint.paint t (editsBelow p es)⟩ := by
  induction es generalizing t with
  | nil => rfl
  | cons e rest ih =>
    have hwants := h.wants e (by simp)
    rw [strokes_cons, stroke, hwants, opened_self, ih h.tail]
    by_cases hhits : e.Hits p
    · have hleaf := h.below e (by simp) hhits
      simp [editsBelow, hhits, Edit.onChild_below hleaf, Paint.paint_cons]
    · simp [editsBelow, hhits]

theorem settles_cons_of_settles (h : Settles p es) : Settles p (e :: es) :=
  fun s s' => h (s.stroke p e) (s'.stroke p e)

theorem settles_cons_leaf (hhits : e.Hits p) (hleaf : e.isLeaf = true) :
    Settles p (e :: es) := by
  intro s s'
  rw [strokes_cons, strokes_cons, stroke_leaf hhits hleaf, stroke_leaf hhits hleaf]

/-- A slot that is opened for a new kind forgets what it held. -/
theorem settles_cons_of_wants_ne (h : Deepens p k es) (hne : es ≠ []) (hwants : e.wants ≠ k) :
    Settles p (e :: es) := by
  intro s s'
  rw [strokes_cons, strokes_cons, h.strokes_opened hne, h.strokes_opened hne (s'.stroke p e),
    opened_other rfl hwants, opened_other rfl hwants]

theorem settles_or_deepens (p : PathKey) (hne : es ≠ []) :
    Settles p es ∨ ∃ k, Deepens p k es := by
  induction es with
  | nil => exact absurd rfl hne
  | cons e rest ih =>
    by_cases hleaf : e.Hits p ∧ e.isLeaf = true
    · exact .inl (settles_cons_leaf hleaf.1 hleaf.2)
    · have hbelow : e.Hits p → e.isLeaf = false := by simpa using hleaf
      by_cases hrest : rest = []
      · subst hrest
        exact .inr ⟨e.wants, by simp, by simpa using hbelow⟩
      · rcases ih hrest with hsettles | ⟨k, hdeepens⟩
        · exact .inl (settles_cons_of_settles hsettles)
        · by_cases hwants : e.wants = k
          · refine .inr ⟨k, ?_, ?_⟩
            · exact List.forall_mem_cons.2 ⟨hwants, hdeepens.wants⟩
            · exact List.forall_mem_cons.2 ⟨hbelow, hdeepens.below⟩
          · exact .inl (settles_cons_of_wants_ne hdeepens hrest hwants)

theorem strokes_idempotent (s : Slot)
    (ih : ∀ k, Deepens p k es → ∀ t,
      Paint.paint (Paint.paint t (editsBelow p es)) (editsBelow p es) =
        Paint.paint t (editsBelow p es)) :
    (s.strokes p es).strokes p es = s.strokes p es := by
  by_cases hne : es = []
  · subst hne
    rfl
  · rcases settles_or_deepens p hne with hsettles | ⟨k, hdeepens⟩
    · exact hsettles _ s
    · rw [hdeepens.strokes_opened hne s, hdeepens.strokes_eq, hdeepens.strokes_eq,
        ih k hdeepens]

theorem length_editsBelow {n : Nat} (h : Deepens p k es)
    (hlength : ∀ e ∈ es, e.path.length < n + 1) : ∀ e ∈ editsBelow p es, e.path.length < n := by
  intro e he
  obtain ⟨f, hf, rfl⟩ := List.mem_map.1 he
  obtain ⟨hmem, hhits⟩ := List.mem_filter.1 hf
  exact Edit.length_below (h.below f hmem (of_decide_eq_true hhits)) (hlength f hmem)

end Slot

end BlockConvert
