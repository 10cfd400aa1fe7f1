import BlockConvert.Proofs.Paint.Elements
import BlockConvert.Proofs.Paint.Entries

set_option autoImplicit false

/-!
# Painting twice

Edits may retype lists, open children anew and write over one another, and still a tree comes out
the same when the same edits are applied to it again. The edits that reach a child are shorter than
those that reach the tag itself, so this goes by induction on the length of the paths.
-/

namespace BlockConvert

namespace Paint

/-- Edits whose paths are shorter than this can be applied again. -/
def Repeatable (n : Nat) : Prop :=
  ∀ es : List Edit, (∀ e ∈ es, e.path.length < n) → ∀ t, paint (paint t es) es = paint t es

variable {n : Nat} {es : List Edit}

theorem strokes_repeatable (h : Repeatable n) (hlength : ∀ e ∈ es, e.path.length < n + 1)
    (s : Slot) (p : PathKey) : (s.strokes p es).strokes p es = s.strokes p es := by
  apply Slot.strokes_idempotent
  intro k hdeepens
  exact h _ (Slot.length_editsBelow hdeepens hlength)

theorem paint_barren {t : Tag} (h : t.kind ∈ barren) (es : List Edit) : paint t es = t := by
  induction es with
  | nil => rfl
  | cons e rest ih => rw [paint_cons, apply_barren h, ih]

theorem repeatable_succ (h : Repeatable n) : Repeatable (n + 1) := by
  intro es hlength t
  have hfilter (keep : Edit → Bool) : ∀ e ∈ es.filter keep, e.path.length < n + 1 :=
    fun e he => hlength e (List.mem_filter.1 he).1
  cases t using formCases with
  | barren t hbarren => rw [paint_barren hbarren, paint_barren hbarren]
  | compound entries =>
    rw [paint_compound, paint_compound, paintEntries_idempotent]
    exact fun s key => strokes_repeatable h (hfilter _) s _
  | list l =>
    rw [TypedList.paint_list, TypedList.paint_list, TypedList.strokes_idempotent]
    exact fun s i => strokes_repeatable h (hfilter _) s _
  | array harray values => exact harray.paint_idempotent values es

theorem repeatable (n : Nat) : Repeatable n := by
  induction n with
  | zero =>
    intro es hlength t
    have hnone : es = [] := List.eq_nil_iff_forall_not_mem.2 fun e he => by
      have := hlength e he
      omega
    subst hnone
    rfl
  | succ n ih => exact repeatable_succ ih

theorem exists_longer (es : List Edit) : ∃ n, ∀ e ∈ es, e.path.length < n := by
  induction es with
  | nil => exact ⟨0, by simp⟩
  | cons e rest ih =>
    obtain ⟨n, hn⟩ := ih
    refine ⟨max (e.path.length + 1) n, List.forall_mem_cons.2 ⟨by omega, fun f hf => ?_⟩⟩
    have := hn f hf
    omega

theorem paint_paint (t : Tag) (es : List Edit) : paint (paint t es) es = paint t es := by
  obtain ⟨n, hn⟩ := exists_longer es
  exact repeatable n es hn t

theorem tag_build (name : String) (kind : Kind) (edits : List Edit) (template : Option Tag) :
    (build name kind edits template).tree =
      ⟨name, paint (template.getD (Tag.empty kind)) (edits.filter (·.isFor name kind))⟩ := by
  rw [← applyAll_tag]
  rfl

/-- Painting the edits twice over, and painting them over the tree that they have painted, both give
the tree that they paint once, whatever the edits and the template are. -/
theorem build_idempotent (name : String) (kind : Kind) (edits : List Edit)
    (template : Option Tag) :
    (build name kind (edits ++ edits) template).tree = (build name kind edits template).tree ∧
      (build name kind edits (some (build name kind edits template).tree.tag)).tree =
        (build name kind edits template).tree := by
  simp only [tag_build, List.filter_append, paint_append, Option.getD_some, paint_paint, and_self]

end Paint

end BlockConvert
