import BlockConvert.Proofs.Paint.Checked

set_option autoImplicit false

/-!
# What a dropped edit leaves behind

An edit that is dropped writes neither its key nor its value, but what it opened on its way stays
open: a missing child, or one of another kind, has given way to an empty tag, and lists have been
retyped and padded. So a dropped edit leaves a well formed tree as it was just if its way was there
already, as far as there were containers to go into.
-/

namespace BlockConvert

namespace Tag

/-- The tag with the way of the path opened, as long as the tags on it take the steps: every child
is of the kind that the path declares, and an empty one where there was none of this kind. -/
def openWay : Tag → Path → Tag
  | t, [] => t
  | t, step :: rest =>
    match t, step.key with
    | compound entries, .key k =>
      compound
        (Table.insert k ((Paint.openChild (Table.get? entries k) step.kind).openWay rest) entries)
    | list element items, .index i =>
      let opened := TypedList.padTo ⟨element, items⟩ (i + 1) step.kind
      let child := opened.items[i]?.getD (empty step.kind)
      list opened.element (opened.items.set i (child.openWay rest))
    | t, _ => t

/-- As long as the tags on the path take its steps, these lead to children of the kinds that the
path declares. -/
def Paved : Tag → Path → Prop
  | _, [] => True
  | t, step :: rest => t.kind.takes step.key = true →
    ∃ child, t.at? step.key = some child ∧ child.kind = step.kind ∧ child.Paved rest

variable {t : Tag} {step : PathStep} {rest p : Path}

theorem openWay_compound (entries : List (String × Tag)) (k : String) (kind : Kind) (rest : Path) :
    (compound entries).openWay (⟨.key k, kind⟩ :: rest) = compound
      (Table.insert k ((Paint.openChild (Table.get? entries k) kind).openWay rest) entries) := rfl

theorem openWay_list (l : TypedList) (i : Nat) (kind : Kind) (rest : Path) :
    l.toTag.openWay (⟨.index i, kind⟩ :: rest) = list (l.padTo (i + 1) kind).element
      ((l.padTo (i + 1) kind).items.set i
        (((l.padTo (i + 1) kind).items[i]?.getD (empty kind)).openWay rest)) := rfl

theorem openWay_of_not_takes (h : ¬t.kind.takes step.key = true) :
    t.openWay (step :: rest) = t := by
  obtain ⟨key, kind⟩ := step
  cases t <;> cases key <;> first | rfl | exact absurd rfl h

theorem kind_openWay (t : Tag) (p : Path) : (t.openWay p).kind = t.kind := by
  cases p with
  | nil => cases t <;> rfl
  | cons step rest =>
    obtain ⟨key, kind⟩ := step
    cases t <;> cases key <;> rfl

theorem openWay_compound_iff {entries : List (String × Tag)} {k : String} {kind : Kind}
    (hsorted : Table.Sorted entries) :
    (compound entries).openWay (⟨.key k, kind⟩ :: rest) = compound entries ↔
      ∃ child, Table.get? entries k = some child ∧ child.kind = kind ∧
        child.openWay rest = child := by
  rw [openWay_compound, compound.injEq, Table.insert_eq_self_iff hsorted]
  constructor
  · intro hget
    cases hchild : Table.get? entries k with
    | none => simp [hchild] at hget
    | some child =>
      rw [hchild] at hget
      have hsame := Option.some.inj hget
      have hkind : child.kind = kind := by rw [hsame, kind_openWay, Paint.kind_openChild]
      rw [Paint.openChild_some, if_pos hkind] at hsame
      exact ⟨child, rfl, hkind, hsame.symm⟩
  · rintro ⟨child, hget, hkind, hsame⟩
    rw [hget, Paint.openChild_some, if_pos hkind, hsame]

theorem openWay_list_iff {l : TypedList} {i : Nat} {kind : Kind} (hkinds : l.Homogeneous) :
    l.toTag.openWay (⟨.index i, kind⟩ :: rest) = l.toTag ↔
      ∃ child, l.items[i]? = some child ∧ child.kind = kind ∧ child.openWay rest = child := by
  rw [openWay_list, TypedList.toTag, list.injEq, TypedList.padTo_element]
  constructor
  · rintro ⟨helement, hitems⟩
    have hlength := congrArg List.length hitems
    rw [List.length_set, TypedList.padTo_length] at hlength
    have hlt : i < l.items.length := by omega
    have hget := List.getElem?_eq_getElem hlt
    have hkind := hkinds.1 _ (List.mem_of_getElem? hget)
    rw [TypedList.padTo_eq_self helement.symm hlt, hget, Option.getD_some] at hitems
    have hsame := congrArg (·[i]?) hitems
    rw [List.getElem?_set_self hlt, hget] at hsame
    exact ⟨_, hget, Option.some.inj (hkind.trans helement.symm), Option.some.inj hsame⟩
  · rintro ⟨child, hget, hkind, hsame⟩
    obtain ⟨hlt, rfl⟩ := List.getElem?_eq_some_iff.1 hget
    have helement : l.element = some kind := by
      rw [← hkind, hkinds.1 _ (List.mem_of_getElem? hget)]
    rw [TypedList.padTo_eq_self helement hlt, hget, Option.getD_some, hsame]
    exact ⟨helement.symm, List.set_getElem_self hlt⟩

/-- The induction is on the path. -/
theorem openWay_eq_self_iff (ht : t.WellFormed) : t.openWay p = t ↔ t.Paved p := by
  induction p generalizing t with
  | nil => simp [openWay, Paved]
  | cons step rest ih =>
    have hbelow {child : Tag} (hget : t.at? step.key = some child) :
        child.openWay rest = child ↔ child.Paved rest :=
      ih (ht.child (mem_children_of_at? hget))
    have hpaved : (∃ child, t.at? step.key = some child ∧ child.kind = step.kind ∧
        child.openWay rest = child) ↔ ∃ child, t.at? step.key = some child ∧
        child.kind = step.kind ∧ child.Paved rest :=
      exists_congr fun child => and_congr_right fun hget => and_congr_right fun _ => hbelow hget
    by_cases htakes : t.kind.takes step.key = true
    · rw [Paved, forall_prop_of_true htakes, ← hpaved]
      obtain ⟨key, kind⟩ := step
      cases t with
      | compound entries =>
        cases key with
        | index i => contradiction
        | key k => exact openWay_compound_iff ht.here
      | list element items =>
        cases key with
        | key k => contradiction
        | index i => exact openWay_list_iff ht.here
      | _ => cases key <;> contradiction
    · simp [openWay_of_not_takes htakes, Paved, htakes]

end Tag

namespace Paint

variable {key : PathKey} {value node : Tag}

theorem writeElement_ne_dropped {α : Type} (array : List α → Tag) (zero : α) (values : List α)
    (i : Nat) (v : α) : (writeElement array zero values i v).landing ≠ .dropped := by
  by_cases hfits : (PathKey.index i).Fits
  · simp [writeElement_of_fits hfits]
  · simp [writeElement_of_not_fits hfits]

theorem leaf_of_dropped (h : (leaf node key value).landing = .dropped) :
    (leaf node key value).tag = node := by
  cases node with
  | compound entries =>
    cases key with
    | index i => rfl
    | key k => contradiction
  | list element items =>
    cases key with
    | key k => rfl
    | index i =>
      by_cases hfits : (PathKey.index i).Fits
      · simp [leaf, lengthUpTo?_of_fits hfits, TypedList.set?_padTo] at h
      · simp [leaf, lengthUpTo?_of_not_fits hfits] at h
  | byteArray _ | intArray _ | longArray _ =>
    cases key with
    | key k => rfl
    | index i => cases value <;> first | rfl | exact (writeElement_ne_dropped _ _ _ _ _ h).elim
  | _ => rfl

/-- The induction is on the path, down to where the edit is dropped. -/
theorem write_of_dropped {path : Path} (h : (write key value path node).landing = .dropped) :
    (write key value path node).tag = node.openWay path := by
  induction path generalizing node with
  | nil =>
    rw [Tag.openWay]
    exact leaf_of_dropped h
  | cons step rest ih =>
    obtain ⟨stepKey, kind⟩ := step
    cases node with
    | compound entries =>
      cases stepKey with
      | index i => rfl
      | key k => rw [Tag.openWay_compound, ← ih h]; rfl
    | list element items =>
      cases stepKey with
      | key k => rfl
      | index i =>
        by_cases hfits : (PathKey.index i).Fits
        · have hchild := List.getElem?_eq_getElem
            (TypedList.lt_length_padTo ⟨element, items⟩ i kind)
          simp only [write, lengthUpTo?_of_fits hfits, hchild] at h ⊢
          rw [← TypedList.toTag.eq_1 ⟨element, items⟩, Tag.openWay_list, ih h, hchild,
            Option.getD_some]
        · simp [write, lengthUpTo?_of_not_fits hfits] at h
    | _ => rfl

variable {name : String} {kind : Kind} {edits : List Edit} {template : Option Tag} {e : Edit}

/-- Only an edit that is for the tree is reported. -/
theorem dropped_of_reported (h : (build name kind (edits ++ [e]) template).landed =
      (build name kind edits template).landed ++ [(e, .dropped)]) :
    e.isFor name kind = true ∧
      (apply (build name kind edits template).tree.tag e).landing = .dropped := by
  cases hfor : e.isFor name kind with
  | false => simp [build_append_other hfor] at h
  | true =>
    rw [build_append hfor] at h
    simpa using h

/-- An edit that is reported as dropped only opens its way, and so the tree stays as it was just if
the way is there already. -/
theorem build_dropped (name : String) (kind : Kind) (htemplate : ∀ t ∈ template, t.WellFormed)
    (hedits : ∀ d ∈ edits, d.value.WellFormed)
    (hdropped : (build name kind (edits ++ [e]) template).landed =
      (build name kind edits template).landed ++ [(e, .dropped)]) :
    (build name kind (edits ++ [e]) template).tree =
        ⟨name, (build name kind edits template).tree.tag.openWay e.path⟩ ∧
      ((build name kind (edits ++ [e]) template).tree = (build name kind edits template).tree ↔
        (build name kind edits template).tree.tag.Paved e.path) := by
  obtain ⟨hfor, hlanding⟩ := dropped_of_reported hdropped
  have htree : (build name kind (edits ++ [e]) template).tree =
      ⟨name, (build name kind edits template).tree.tag.openWay e.path⟩ := by
    rw [build_append hfor, apply, write_of_dropped hlanding]
  have hname : (build name kind edits template).tree =
      ⟨name, (build name kind edits template).tree.tag⟩ := rfl
  refine ⟨htree, ?_⟩
  rw [htree, hname, NamedTag.mk.injEq]
  exact (and_iff_right rfl).trans (Tag.openWay_eq_self_iff (wellFormed_build htemplate hedits))

def intoIdentifier : Edit := .new (idPath 1) (.key "space") (.string "minecraft")

theorem build_dropped_identifier :
    (∀ t ∈ some idItems, t.WellFormed) ∧ (∀ d ∈ [countEdit 0 2], d.value.WellFormed) ∧
      (build "" .compound ([countEdit 0 2] ++ [intoIdentifier]) (some idItems)).landed =
        (build "" .compound [countEdit 0 2] (some idItems)).landed ++
          [(intoIdentifier, .dropped)] ∧
      (build "" .compound ([countEdit 0 2] ++ [intoIdentifier]) (some idItems)).tree =
        (build "" .compound [countEdit 0 2] (some idItems)).tree := by
  have htemplate : ∀ t ∈ some idItems, t.WellFormed := fun t ht => by
    cases ht
    exact idItems_wellFormed
  have hedits : ∀ d ∈ [countEdit 0 2], d.value.WellFormed :=
    List.forall_mem_singleton.2 (Tag.throughout_of_childless rfl trivial)
  have hdropped : (build "" .compound ([countEdit 0 2] ++ [intoIdentifier])
      (some idItems)).landed = (build "" .compound [countEdit 0 2] (some idItems)).landed ++
        [(intoIdentifier, .dropped)] := by decide
  obtain ⟨-, hstays⟩ := build_dropped "" .compound htemplate hedits hdropped
  refine ⟨htemplate, hedits, hdropped, hstays.2 ?_⟩
  exact fun _ => ⟨_, rfl, rfl, fun _ => ⟨_, rfl, rfl, fun _ => ⟨_, rfl, rfl, trivial⟩⟩⟩

def intoNumber : Edit := .new [.atKey "Items" .list, .atIndex 0 .int] (.key "Count") (.byte 3)

/-- The edit is dropped, but first the list is retyped, and its items are lost. -/
theorem build_dropped_retypes : idItems.WellFormed ∧
    (build "" .compound ([] ++ [intoNumber]) (some idItems)).landed =
      (build "" .compound [] (some idItems)).landed ++ [(intoNumber, .dropped)] ∧
    (build "" .compound ([] ++ [intoNumber]) (some idItems)).tree ≠
      (build "" .compound [] (some idItems)).tree :=
  ⟨idItems_wellFormed, by decide, by decide⟩

end Paint

end BlockConvert
