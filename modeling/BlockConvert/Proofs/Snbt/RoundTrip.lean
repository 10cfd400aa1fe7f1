import BlockConvert.Proofs.Snbt.Rereading
import BlockConvert.Proofs.Table.Lookup
import BlockConvert.Proofs.Table.Overwriting
import BlockConvert.Proofs.Tag.Throughout

set_option autoImplicit false

/-!
# The text of a tag is read as the tag

Reading takes back what printing lays out, just for the tags whose lists are of one kind, whose
compounds are in order and whose floating point values have a text. A list or a compound comes back
if it is well made and all that is inside it comes back, so both directions go by induction on what
is inside the tag.
-/

namespace BlockConvert

namespace Tag

open Decimal (Format)

/-- What a tag must be, apart from the tags inside it, to be read back from its text: lists declare
the kind of their elements, and none if there are none, the entries of compounds are in order, and
floating point values are finite or minus infinity. -/
def Printable : Tag → Prop
  | list element items =>
    TypedList.Homogeneous ⟨element, items⟩ ∧ (items = [] → element = none)
  | compound entries => Table.Sorted entries
  | float bits => Format.single.HasText bits.toNat
  | double bits => Format.double.HasText bits.toNat
  | _ => True

end Tag

namespace Snbt

open Decimal (Format)

variable {t : Tag}

theorem rereadEntries_keys {entries es : List (String × Tag)}
    (h : List.Forall₂ (fun e e' => rereadEntry e = .ok e') entries es) :
    es.map Prod.fst = entries.map Prod.fst := by
  induction h with
  | nil => rfl
  | cons hread _ ih =>
    obtain ⟨u, -, rfl⟩ := map_eq_ok.1 hread
    rw [List.map_cons, List.map_cons, ih]

theorem hasText_of_classify {f : Format} {bits : Nat} {suffix : Char}
    (hsuffix : suffix = 'f' ∨ suffix = 'd')
    (h : (classify (renderFloating f bits suffix)).kind ≠ .string) : f.HasText bits := by
  by_contra hnone
  refine h ?_
  rw [renderFloating]
  rcases text_of_not_hasText hnone with htext | htext <;> rw [htext] <;>
    rcases hsuffix with rfl | rfl <;> rfl

theorem reread_list {element : Option Kind} {items : List Tag} :
    reread (.list element items) = .ok (.list element items) ↔
      (Tag.list element items).Printable ∧ ∀ u ∈ items, reread u = .ok u := by
  rw [reread, rereadItems_eq_mapM]
  constructor
  · intro h
    obtain ⟨us, hus, hlist⟩ := bind_eq_ok.1 h
    obtain ⟨element', heq, hhomogeneous, hempty⟩ := listOf_eq_ok hlist
    cases heq
    exact ⟨⟨hhomogeneous, hempty⟩, List.forall₂_same.1 (mapM_eq_ok.1 hus)⟩
  · rintro ⟨⟨hhomogeneous, hempty⟩, hitems⟩
    exact bind_eq_ok.2 ⟨items, mapM_eq_ok.2 (List.forall₂_same.2 hitems),
      listOf_of_homogeneous hhomogeneous hempty⟩

theorem reread_compound {entries : List (String × Tag)} :
    reread (.compound entries) = .ok (.compound entries) ↔
      (Tag.compound entries).Printable ∧ ∀ e ∈ entries, reread e.2 = .ok e.2 := by
  rw [reread, rereadEntries_eq_mapM]
  constructor
  · intro h
    obtain ⟨es, hes, heq⟩ := map_eq_ok.1 h
    cases heq
    have hread := mapM_eq_ok.1 hes
    have hsorted : Table.Sorted (Table.ofEntries es) := Table.sorted_ofEntries es
    -- the entries that are read have the keys of the entries that are printed, so they are in order
    have hsame : Table.ofEntries es = es :=
      Table.ofEntries_of_sorted (Table.sorted_of_keys (rereadEntries_keys hread) hsorted)
    refine ⟨hsorted, fun e he => ?_⟩
    rw [hsame] at hread he
    obtain ⟨u, hu, heq⟩ := map_eq_ok.1 (List.forall₂_same.1 hread e he)
    rwa [← heq] at hu ⊢
  · rintro ⟨hsorted, hentries⟩
    refine map_eq_ok.2 ⟨entries, mapM_eq_ok.2 (List.forall₂_same.2 fun e he => ?_), ?_⟩
    · rw [rereadEntry, hentries e he]
      rfl
    · rw [Table.ofEntries_of_sorted hsorted]

theorem reread_of_printable (h : t.Throughout Tag.Printable) : reread t = .ok t := by
  induction h with
  | @mk t here _ ih =>
    cases t with
    | float b => exact congrArg Except.ok (classify_float here)
    | double b => exact congrArg Except.ok (classify_double here)
    | list element items =>
      refine reread_list.2 ⟨here, fun u hu => ?_⟩
      obtain ⟨key, hchild⟩ := Tag.exists_mem_children_list element hu
      exact ih key u hchild
    | compound entries =>
      exact reread_compound.2 ⟨here, fun e he => ih _ e.2 (Tag.mem_children_compound he)⟩
    | _ => rfl

/-- The induction is on the length of the text. -/
theorem printable_of_reread {length : Nat} (hlength : (render t).length = length)
    (h : reread t = .ok t) : t.Throughout Tag.Printable := by
  induction length using Nat.strong_induction_on generalizing t with
  | _ length ih =>
    subst hlength
    cases t with
    | float b =>
      have hword : classify (render (.float b)) = .float b := Except.ok.inj h
      exact Tag.throughout_of_childless rfl
        (hasText_of_classify (.inl rfl) (by rw [← render, hword]; simp [Tag.kind]))
    | double b =>
      have hword : classify (render (.double b)) = .double b := Except.ok.inj h
      exact Tag.throughout_of_childless rfl
        (hasText_of_classify (.inr rfl) (by rw [← render, hword]; simp [Tag.kind]))
    | byteArray vs => exact Tag.throughout_of_elements trivial rfl fun _ => ⟨rfl, trivial⟩
    | intArray vs => exact Tag.throughout_of_elements trivial rfl fun _ => ⟨rfl, trivial⟩
    | longArray vs => exact Tag.throughout_of_elements trivial rfl fun _ => ⟨rfl, trivial⟩
    | list element items =>
      obtain ⟨here, hitems⟩ := reread_list.1 h
      exact Tag.throughout_list here fun u hu =>
        ih _ (length_item_lt element hu) rfl (hitems u hu)
    | compound entries =>
      obtain ⟨here, hentries⟩ := reread_compound.1 h
      exact Tag.throughout_compound here fun e he =>
        ih _ (length_entry_lt he) rfl (hentries e he)
    | _ => exact Tag.throughout_of_childless rfl trivial

theorem reread_eq_self_iff : reread t = .ok t ↔ t.Throughout Tag.Printable :=
  ⟨printable_of_reread rfl, reread_of_printable⟩

end Snbt

namespace Tag

/-- The text of a tag is read as the tag, so no two of these tags have the same text. -/
theorem ofSnbt_snbt {t : Tag} (h : t.Throughout Printable) :
    ofSnbt t.snbt = .ok t ∧ ∀ u : Tag, u.Throughout Printable → u.snbt = t.snbt → u = t := by
  have hread : ∀ {u : Tag}, u.Throughout Printable → ofSnbt u.snbt = .ok u := fun hu =>
    ofSnbt_snbt_eq_ok.2 (Snbt.reread_eq_self_iff.2 hu)
  refine ⟨hread h, fun u hu hsame => ?_⟩
  have heq : Except.ok u = (Except.ok t : Except SnbtError Tag) := by
    rw [← hread h, ← hread hu, hsame]
  exact Except.ok.inj heq

def nested : Tag :=
  .compound
    [("", .string "a\"b\\\n"),
      ("0 \"", .list (some .list)
        [.list none [], .list (some .double) [.double 0xFFF0000000000000, .double 1]]),
      ("true", .byteArray [1, -128]),
      ("é", .compound [])]

theorem nested_printable : nested.Throughout Printable := by
  have hbytes : (byteArray [1, -128]).Throughout Printable := by
    refine throughout_of_atoms trivial fun key u hchild => ?_
    obtain ⟨_, -, heq⟩ := List.mem_map.1 hchild
    cases heq
    exact ⟨rfl, trivial⟩
  have hnone : (list none []).Throughout Printable :=
    throughout_of_childless rfl ⟨⟨by decide, by decide⟩, fun _ => rfl⟩
  have hleast : (double 1).Printable := .inl ⟨false, 1, -1074, by decide⟩
  have hminus : (double 0xFFF0000000000000).Printable := .inr (by decide)
  have hdoubles : (list (some .double) [.double 0xFFF0000000000000, .double 1]).Throughout
      Printable :=
    throughout_list ⟨⟨by decide, by decide⟩, by decide⟩
      (List.forall_mem_cons.2 ⟨throughout_of_childless rfl hminus,
        List.forall_mem_singleton.2 (throughout_of_childless rfl hleast)⟩)
  have hsorted : nested.Printable := by
    unfold nested Printable Table.Sorted
    decide
  refine throughout_compound hsorted ?_
  simp only [List.forall_mem_cons, List.not_mem_nil, false_implies, implies_true, and_true]
  refine ⟨throughout_of_childless rfl trivial, ?_, hbytes, throughout_of_childless rfl .nil⟩
  exact throughout_list ⟨⟨by decide, by decide⟩, by decide⟩
    (List.forall_mem_cons.2 ⟨hnone, List.forall_mem_singleton.2 hdoubles⟩)

theorem ofSnbt_snbt_nested :
    nested.Throughout Printable ∧ ofSnbt nested.snbt = .ok nested ∧
      ∀ u : Tag, u.Throughout Printable → u.snbt = nested.snbt → u = nested :=
  ⟨nested_printable, ofSnbt_snbt nested_printable⟩

end Tag

end BlockConvert
