import BlockConvert.Proofs.Paint.Idempotence

set_option autoImplicit false

/-!
# Edits whose order does not matter

Two edits that go the same way until they turn to different children can be swapped. Before they
part they open the same tags for the same kinds, and whichever comes first opens them for both.
Where they part at indexes of a list, both retype it for the same kind, so that each leaves alone
what the other one writes. An edit that is dropped on the way is no exception: it opens the same
tags first and last.
-/

namespace BlockConvert

/-- Two steps from one tag to different children, which a list can hold side by side. -/
def PathStep.Apart (s t : PathStep) : Prop :=
  match s.key, t.key with
  | .key k, .key l => k ≠ l
  | .index i, .index j => i ≠ j ∧ s.kind = t.kind
  | _, _ => False

instance (s t : PathStep) : Decidable (s.Apart t) := by
  unfold PathStep.Apart
  split <;> infer_instance

/-- The paths have their first steps in common and then go apart. -/
def Path.Diverge : Path → Path → Prop
  | s :: p, t :: q => s.Apart t ∨ s = t ∧ Diverge p q
  | _, _ => False

instance Path.decidableDiverge : (p q : Path) → Decidable (p.Diverge q)
  | s :: p, t :: q =>
    have := decidableDiverge p q
    inferInstanceAs (Decidable (s.Apart t ∨ s = t ∧ Path.Diverge p q))
  | [], _ => isFalse id
  | _ :: _, [] => isFalse id

namespace Edit

variable {e f : Edit}

/-- The edits do not stand in one another's way at the tag that they are both applied to. -/
structure Compatible (e f : Edit) : Prop where
  indexes : ∀ i j, e.head = .index i → f.head = .index j → e.wants = f.wants
  wants : e.head = f.head → e.wants = f.wants
  onChild : e.head = f.head → ∀ child, f.onChild (e.onChild child) = e.onChild (f.onChild child)

end Edit

namespace Slot

variable {e f : Edit}

theorem stroke_stroke_comm (h : e.Compatible f) (hwants : e.wants = f.wants) (p : PathKey)
    (s : Slot) : (s.stroke p e).stroke p f = (s.stroke p f).stroke p e := by
  simp only [stroke, hwants, opened_self, Slot.mk.injEq, true_and]
  by_cases he : e.Hits p <;> by_cases hf : f.Hits p <;> simp only [he, hf, if_true, if_false]
  exact h.onChild (he.1.trans hf.1.symm) _

end Slot

namespace TypedList

variable {e f : Edit}

theorem reach_swap (e f : Edit) : reach [e, f] = reach [f, e] := by
  simp only [reach, List.foldr_cons, List.foldr_nil]
  cases e.head <;> cases f.head <;> simp only
  split <;> split <;> simp only [Nat.max_comm, Nat.max_left_comm]

theorem stroke_stroke_comm (h : e.Compatible f) (l : TypedList) :
    (l.stroke e).stroke f = (l.stroke f).stroke e := by
  cases he : e.head with
  | key k => simp only [stroke_of_key _ he]
  | index i =>
    cases hf : f.head with
    | key k => simp only [stroke_of_key _ hf]
    | index j =>
      apply ext_slots
      · have hboth (d d' : Edit) : (l.stroke d).stroke d' = l.strokes [d, d'] := rfl
        rw [hboth, hboth, length_strokes, length_strokes, reach_swap]
      · intro p
        simp only [slotAt_stroke he, slotAt_stroke hf]
        exact Slot.stroke_stroke_comm h (h.indexes i j he hf) _ _

end TypedList

namespace Paint

variable {e f : Edit}

theorem strokeEntries_strokeEntries {k : String} (he : e.head = .key k) (hf : f.head = .key k)
    (hwants : e.wants = f.wants) (entries : List (String × Tag)) :
    strokeEntries (strokeEntries entries e) f =
      Table.insert k (f.onChild (e.onChild (openChild (Table.get? entries k) e.wants))) entries := by
  have hkind := e.kind_onChild (kind_openChild (Table.get? entries k) e.wants)
  rw [hwants] at hkind
  simp only [strokeEntries, he, hf, Table.get?_insert, if_true, openChild_some, hwants, hkind,
    Table.insert_insert_self]

theorem strokeEntries_comm (h : e.Compatible f) (entries : List (String × Tag)) :
    strokeEntries (strokeEntries entries e) f = strokeEntries (strokeEntries entries f) e := by
  cases he : e.head with
  | index i => simp only [strokeEntries, he]
  | key k =>
    cases hf : f.head with
    | index j => simp only [strokeEntries, hf]
    | key l =>
      by_cases hkl : k = l
      · subst hkl
        have hhead := he.trans hf.symm
        have hwants := h.wants hhead
        rw [strokeEntries_strokeEntries he hf hwants,
          strokeEntries_strokeEntries hf he hwants.symm, h.onChild hhead, hwants]
      · simp only [strokeEntries, he, hf, Table.get?_insert, hkl, Ne.symm hkl, if_false]
        exact Table.insert_insert_apart (Ne.symm hkl) _ _ _

variable {α : Type} {array : List α → Tag} {make : α → Tag} {read : Tag → Option α} {zero : α}

theorem IsArray.apply_comm (harray : IsArray array make read zero) (h : e.Compatible f)
    (values : List α) : (apply (apply (array values) e).tag f).tag =
      (apply (apply (array values) f).tag e).tag := by
  rw [(harray.apply_eq values e).1, (harray.apply_eq values f).1, (harray.apply_eq _ f).1,
    (harray.apply_eq _ e).1]
  cases he : e.element? read with
  | none => rfl
  | some v =>
    cases hf : f.element? read with
    | none => rfl
    | some w =>
      obtain ⟨i, v⟩ := v
      obtain ⟨j, w⟩ := w
      obtain ⟨heleaf, hehits, heread⟩ := Edit.element?_eq_some he
      obtain ⟨hfleaf, hfhits, hfread⟩ := Edit.element?_eq_some hf
      by_cases hij : i = j
      · -- two writes at one index only get here if they write the same
        subst hij
        have hvalue := h.onChild (hehits.1.trans hfhits.1.symm) e.value
        rw [Edit.onChild_leaf hfleaf, Edit.onChild_leaf heleaf] at hvalue
        rw [hvalue, heread] at hfread
        cases hfread
        rfl
      · exact congrArg array ((writeAt_overwriting zero).apart w v values (Ne.symm hij))

theorem apply_comm_of_compatible (h : e.Compatible f) (t : Tag) :
    (apply (apply t e).tag f).tag = (apply (apply t f).tag e).tag := by
  cases t using formCases with
  | barren t hbarren => rw [apply_barren hbarren, apply_barren hbarren, apply_barren hbarren]
  | compound entries => simp only [apply_compound, strokeEntries_comm h]
  | list l => simp only [apply_list, TypedList.stroke_stroke_comm h]
  | array harray values => exact harray.apply_comm h values

end Paint

namespace Edit

variable {e f : Edit}

theorem compatible_of_apart (h : e.first.Apart f.first) : e.Compatible f := by
  have hne : e.head ≠ f.head := by
    intro heq
    simp only [PathStep.Apart, first, heq] at h
    cases hhead : f.head <;> simp [hhead] at h
  refine ⟨fun i j he hf => ?_, fun heq => absurd heq hne, fun heq => absurd heq hne⟩
  simp only [PathStep.Apart, first, he, hf] at h
  exact h.2

theorem compatible_of_first_eq (h : e.first = f.first) (he : e.isLeaf = false)
    (hf : f.isLeaf = false) (hbelow : e.below.Compatible f.below) : e.Compatible f := by
  obtain ⟨-, hwants⟩ := PathStep.mk.inj h
  refine ⟨fun _ _ _ _ => hwants, fun _ => hwants, fun _ child => ?_⟩
  simp only [onChild_below he, onChild_below hf]
  exact Paint.apply_comm_of_compatible hbelow child

theorem diverge_target : e.target.Diverge f.target ↔ e.first.Apart f.first ∨
    e.first = f.first ∧ e.isLeaf = false ∧ f.isLeaf = false ∧
      e.below.target.Diverge f.below.target := by
  cases he : e.isLeaf with
  | true =>
    cases hf : f.isLeaf <;> simp [target_leaf, target_below, Path.Diverge, he, hf]
  | false =>
    cases hf : f.isLeaf <;> simp [target_leaf, target_below, Path.Diverge, he, hf]

/-- The induction is on the path of one edit, as far as the other one goes along. -/
theorem compatible_of_diverge (h : e.target.Diverge f.target) : e.Compatible f := by
  induction hpath : e.path generalizing e f with
  | nil =>
    rcases diverge_target.1 h with hapart | ⟨-, hleaf, -⟩
    · exact compatible_of_apart hapart
    · simp [isLeaf, hpath] at hleaf
  | cons step rest ih =>
    rcases diverge_target.1 h with hapart | ⟨hfirst, he, hf, hbelow⟩
    · exact compatible_of_apart hapart
    · exact compatible_of_first_eq hfirst he hf (ih hbelow (congrArg List.tail hpath))

end Edit

namespace Paint

/-- Two neighbouring edits that go apart can be swapped, among any other edits. -/
theorem build_swap (name : String) (kind : Kind) (template : Option Tag) (before later : List Edit)
    {e f : Edit} (h : e.target.Diverge f.target) :
    (build name kind (before ++ [e, f] ++ later) template).tree =
      (build name kind (before ++ [f, e] ++ later) template).tree := by
  have hswap (t : Tag) : paint t ([e, f].filter (·.isFor name kind)) =
      paint t ([f, e].filter (·.isFor name kind)) := by
    cases he : e.isFor name kind <;> cases hf : f.isFor name kind <;>
      simp only [List.filter_cons, List.filter_nil, he, hf, if_true, Bool.false_eq_true, if_false]
    exact apply_comm_of_compatible (Edit.compatible_of_diverge h) t
  simp only [tag_build, List.filter_append, paint_append, hswap]

def shortItems : Tag := .compound [("Items", .list (some .short) [.short 1])]

def itemEdit (index : Nat) (value : Int32) : Edit :=
  .new [.atKey "Items" .list] (.index index) (.int value)

theorem build_swap_items : (itemEdit 2 7).target.Diverge (itemEdit 0 5).target ∧
    (build "" .compound ([] ++ [itemEdit 2 7, itemEdit 0 5] ++ [itemEdit 1 6])
        (some shortItems)).tree =
      (build "" .compound ([] ++ [itemEdit 0 5, itemEdit 2 7] ++ [itemEdit 1 6])
        (some shortItems)).tree :=
  ⟨by decide, build_swap _ _ _ _ _ (by decide)⟩

end Paint

end BlockConvert
