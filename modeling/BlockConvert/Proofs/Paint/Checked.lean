import BlockConvert.Proofs.Paint.Locality

set_option autoImplicit false

/-!
# Where painting stops

No list and no array refuses an edit, and what is painted over well formed tags is well formed and
has the kind of the tag that it was painted over. But painting stops at an index that no length goes
with, be it on the way of an edit or at its end. Since every edit opens the tags on its way for the
kinds that it declares, these kinds tell whether it comes to such an index in a list or an array,
whatever was painted before. How much memory the padding of a list takes is not counted.
-/

namespace BlockConvert

/-- A tag of the kind has, or can open, a child to go into under such a key: a compound under a
name, a list at an index. -/
def Kind.takes : Kind → PathKey → Bool
  | .compound, .key _ => true
  | .list, .index _ => true
  | _, _ => false

/-- From a tag of the kind on, the path comes to an index that no length goes with, in a list or, at
its end, in an array of such elements. -/
def Path.Overflows : Path → Kind → Prop
  | [], _ => False
  | step :: rest, k =>
    ¬step.key.Fits ∧ (k = .list ∨ rest = [] ∧ k.arrayElement? = some step.kind) ∨
      step.key.Fits ∧ k.takes step.key = true ∧ Overflows rest step.kind

instance Path.decidableOverflows : (p : Path) → (k : Kind) → Decidable (p.Overflows k)
  | [], _ => isFalse id
  | step :: rest, k =>
    have := decidableOverflows rest step.kind
    inferInstanceAs (Decidable
      (¬step.key.Fits ∧ (k = .list ∨ rest = [] ∧ k.arrayElement? = some step.kind) ∨
        step.key.Fits ∧ k.takes step.key = true ∧ Overflows rest step.kind))

def Edit.Fits (e : Edit) : Prop := ∀ step ∈ e.target, step.key.Fits

theorem Edit.overflows_target (e : Edit) (k : Kind) : e.target.Overflows k ↔
    ¬e.head.Fits ∧ (k = .list ∨ e.isLeaf = true ∧ k.arrayElement? = some e.wants) ∨
      e.head.Fits ∧ k.takes e.head = true ∧ Path.Overflows e.target.tail e.wants := by
  cases hleaf : e.isLeaf with
  | true => simp [target_leaf hleaf, Path.Overflows, first]
  | false =>
    have hne : e.below.target ≠ [] := by simp [target]
    simp [target_below hleaf, Path.Overflows, first, hne]

namespace Paint

open Tag (Suits suits_empty)

variable {t : Tag} {e : Edit}

/-! ## What becomes of an edit -/

/-- What becomes of an edit is settled at the tag that it is applied to, or at the child that it
opens there. -/
theorem landing_cases (t : Tag) (e : Edit) : (apply t e).landing = .dropped ∨
    ¬e.head.Fits ∧ (apply t e).landing = .overflow ∨
    ∃ child, (apply t e).landing = e.landingOn child := by
  cases t using formCases with
  | barren t hbarren => exact .inl (landing_barren hbarren e)
  | compound entries =>
    rw [landing_compound]
    cases e.head with
    | index i => exact .inl rfl
    | key k => exact .inr (.inr ⟨_, rfl⟩)
  | list l =>
    by_cases hfits : e.head.Fits
    · cases hhead : e.head with
      | key k => exact .inl (landing_list_of_key l hhead)
      | index i => exact .inr (.inr ⟨_, landing_list_of_fits l hhead hfits⟩)
    · exact .inr (.inl ⟨hfits, landing_list_of_not_fits l hfits⟩)
  | array h values =>
    rw [(h.apply_eq values e).2]
    split
    · rename_i helement
      obtain ⟨w, hw⟩ := Option.isSome_iff_exists.1 helement
      have hleaf := (Edit.element?_eq_some hw).1
      exact .inr (.inr ⟨e.value, (Edit.landingOn_leaf hleaf e.value).symm⟩)
    · split
      · rename_i hover
        exact .inr (.inl ⟨hover.2.1, rfl⟩)
      · exact .inl rfl

/-- A list or an array is padded before it is written to. The induction is on the path. -/
theorem landing_ne_refused (t : Tag) (e : Edit) : (apply t e).landing ≠ .refused := by
  induction hpath : e.path generalizing e t with
  | nil =>
    have hleaf : e.isLeaf = true := by simp [Edit.isLeaf, hpath]
    rcases landing_cases t e with h | ⟨-, h⟩ | ⟨child, h⟩ <;> simp [h, Edit.landingOn_leaf hleaf]
  | cons step rest ih =>
    have hdeep : e.isLeaf = false := by simp [Edit.isLeaf, hpath]
    rcases landing_cases t e with h | ⟨-, h⟩ | ⟨child, h⟩
    · simp [h]
    · simp [h]
    · rw [h, Edit.landingOn_below hdeep]
      exact ih child e.below (congrArg List.tail hpath)

theorem landing_ne_overflow_of_fits (t : Tag) {e : Edit} (h : e.Fits) :
    (apply t e).landing ≠ .overflow := by
  induction hpath : e.path generalizing e t with
  | nil =>
    have hleaf : e.isLeaf = true := by simp [Edit.isLeaf, hpath]
    have hhead : e.head.Fits := h e.first (by simp [Edit.target_leaf hleaf])
    rcases landing_cases t e with hland | ⟨hover, -⟩ | ⟨child, hland⟩
    · simp [hland]
    · exact absurd hhead hover
    · simp [hland, Edit.landingOn_leaf hleaf]
  | cons step rest ih =>
    have hdeep : e.isLeaf = false := by simp [Edit.isLeaf, hpath]
    rw [Edit.Fits, Edit.target_below hdeep, List.forall_mem_cons] at h
    rcases landing_cases t e with hland | ⟨hover, -⟩ | ⟨child, hland⟩
    · simp [hland]
    · exact absurd h.1 hover
    · rw [hland, Edit.landingOn_below hdeep]
      exact ih child h.2 (congrArg List.tail hpath)

theorem overflow_compound (entries : List (String × Tag))
    (h : ∀ child, child.WellFormed → child.kind = e.wants →
      (e.landingOn child = .overflow ↔ Path.Overflows e.target.tail e.wants))
    (ht : (Tag.compound entries).WellFormed) :
    (apply (.compound entries) e).landing = .overflow ↔ e.target.Overflows .compound := by
  rw [landing_compound, e.overflows_target]
  cases hhead : e.head with
  | index i => simp [Kind.takes, Kind.arrayElement?]
  | key k =>
    have hvalue (u : Tag) (hu : Table.get? entries k = some u) : u.WellFormed :=
      ht.child (Tag.mem_children_compound (Table.mem_of_get?_eq_some hu))
    obtain ⟨hkind, hwell⟩ := suits_openChild hvalue e.wants
    simp [Kind.takes, h _ hwell hkind]

theorem overflow_list (l : TypedList)
    (h : ∀ child, child.WellFormed → child.kind = e.wants →
      (e.landingOn child = .overflow ↔ Path.Overflows e.target.tail e.wants))
    (hl : l.toTag.WellFormed) :
    (apply l.toTag e).landing = .overflow ↔ e.target.Overflows .list := by
  rw [e.overflows_target]
  by_cases hfits : e.head.Fits
  · cases hhead : e.head with
    | key k => simp [landing_list_of_key l hhead, Kind.takes]
    | index i =>
      have hlt := l.lt_length_padTo i e.wants
      obtain ⟨hkind, hwell⟩ : Suits e.wants (l.padTo (i + 1) e.wants).items[i] :=
        TypedList.suits_padTo hl (List.getElem_mem hlt)
      rw [landing_list_of_fits l hhead hfits, List.getElem?_eq_getElem hlt, Option.getD_some,
        h _ hwell hkind]
      simp [Kind.takes, ← hhead, hfits]
  · simp [landing_list_of_not_fits l hfits, hfits]

theorem IsArray.overflow_iff {α : Type} {array : List α → Tag} {make : α → Tag}
    {read : Tag → Option α} {zero : α} (h : IsArray array make read zero) (values : List α) :
    (apply (array values) e).landing = .overflow ↔ e.target.Overflows (array values).kind := by
  have hkind : (array values).kind ≠ .list ∧ ∀ key, (array values).kind.takes key = false := by
    cases h <;> exact ⟨nofun, fun key => rfl⟩
  have hread (u : Tag) : (read u).isSome = true ↔
      (array values).kind.arrayElement? = some u.kind := by
    cases h <;> cases u <;> simp [Tag.kind, Kind.arrayElement?]
  rw [(h.apply_eq values e).2, e.overflows_target]
  by_cases hfits : e.head.Fits
  · split <;> simp [hkind, hfits]
  · have hnone : ¬(e.element? read).isSome = true := fun helement => by
      obtain ⟨w, hw⟩ := Option.isSome_iff_exists.1 helement
      obtain ⟨-, ⟨hhead, hindex⟩, -⟩ := Edit.element?_eq_some hw
      exact hfits (hhead ▸ hindex)
    rw [if_neg hnone]
    cases hleaf : e.isLeaf with
    | false => simp [hkind, hfits]
    | true => simp [hkind, hfits, hread, Edit.wants_leaf hleaf]

theorem overflow_iff_of (ht : t.WellFormed)
    (h : ∀ child, child.WellFormed → child.kind = e.wants →
      (e.landingOn child = .overflow ↔ Path.Overflows e.target.tail e.wants)) :
    (apply t e).landing = .overflow ↔ e.target.Overflows t.kind := by
  cases t using formCases with
  | barren t hbarren =>
    rw [landing_barren hbarren, e.overflows_target]
    simp only [barren, List.mem_cons, List.not_mem_nil, or_false] at hbarren
    rcases hbarren with hk | hk | hk | hk | hk | hk | hk <;>
      simp [hk, Kind.takes, Kind.arrayElement?]
  | compound entries => exact overflow_compound entries h ht
  | list l => exact overflow_list l h ht
  | array harray values => exact harray.overflow_iff values

/-- The kinds that an edit declares tell whether it overflows. The induction is on the path of the
edit, which opens every child for the kind that it declares. -/
theorem overflow_iff (ht : t.WellFormed) :
    (apply t e).landing = .overflow ↔ e.target.Overflows t.kind := by
  induction hpath : e.path generalizing e t with
  | nil =>
    have hleaf : e.isLeaf = true := by simp [Edit.isLeaf, hpath]
    refine overflow_iff_of ht fun child _ _ => ?_
    simp [Edit.landingOn_leaf hleaf, Edit.target_leaf hleaf, Path.Overflows]
  | cons step rest ih =>
    have hdeep : e.isLeaf = false := by simp [Edit.isLeaf, hpath]
    refine overflow_iff_of ht fun child hwell hkind => ?_
    rw [Edit.landingOn_below hdeep, Edit.target_below hdeep, List.tail_cons, ← hkind]
    exact ih hwell (congrArg List.tail hpath)

/-! ## Painting one edit after another -/

theorem landed_ne_refused (root : Tag) (es : List Edit) :
    ∀ l ∈ (applyAll root es).2, l.2 ≠ .refused := by
  induction es generalizing root with
  | nil => simp [applyAll]
  | cons e rest ih =>
    exact List.forall_mem_cons.2 ⟨landing_ne_refused root e, ih (apply root e).tag⟩

theorem landed_ne_overflow_of_fits (root : Tag) {es : List Edit} (h : ∀ e ∈ es, e.Fits) :
    ∀ l ∈ (applyAll root es).2, l.2 ≠ .overflow := by
  induction es generalizing root with
  | nil => simp [applyAll]
  | cons e rest ih =>
    obtain ⟨he, hrest⟩ := List.forall_mem_cons.1 h
    exact List.forall_mem_cons.2 ⟨landing_ne_overflow_of_fits root he, ih (apply root e).tag hrest⟩

variable {name : String} {kind : Kind} {edits : List Edit} {template : Option Tag}

theorem finishes_iff (name : String) (kind : Kind) (edits : List Edit) (template : Option Tag) :
    (build name kind edits template).finishes = true ↔
      ∀ l ∈ (build name kind edits template).landed, l.2 ≠ .overflow := by
  rw [Painting.finishes, List.all_eq_true]
  refine forall₂_congr fun l hl => ?_
  have hkept : l.2 ≠ .refused := landed_ne_refused _ _ l hl
  cases hlanding : l.2 <;> simp_all

theorem finishes_of_fits (name : String) (kind : Kind) (template : Option Tag)
    (h : ∀ e ∈ edits, e.Fits) : (build name kind edits template).finishes = true :=
  (finishes_iff name kind edits template).2
    (landed_ne_overflow_of_fits _ fun e he => h e (List.mem_filter.1 he).1)

end Paint

end BlockConvert
