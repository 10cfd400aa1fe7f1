import BlockConvert.Proofs.Snbt.Acceptance
import BlockConvert.Proofs.Snbt.RoundTrip

set_option autoImplicit false

/-!
# When the printed text of what was read is stable

A tag that was read is printed as a text that is read as the same tag, if its floating point values
have a text to be read back from. Nothing else can go wrong: what is read has lists of one kind and
compounds in order. But a text may spell plus infinity, or no number at all, with a sign in front,
or a number beyond the greatest; what these are printed as is read as a text.
-/

namespace BlockConvert

namespace Tag

open Decimal (Format)

/-- Floating point values are finite or minus infinity. -/
def Legible : Tag → Prop
  | float bits => Format.single.HasText bits.toNat
  | double bits => Format.double.HasText bits.toNat
  | _ => True

theorem Printable.legible {t : Tag} (h : t.Printable) : t.Legible := by
  cases t with
  | float b => exact h
  | double b => exact h
  | _ => trivial

end Tag

namespace Snbt

variable {text : List Char} {t : Tag}

theorem DenotesWord.printable (h : DenotesWord text t) (hlegible : t.Legible) :
    t.Throughout Tag.Printable := by
  cases h with
  | yes => exact Tag.throughout_of_childless rfl trivial
  | no => exact Tag.throughout_of_childless rfl trivial
  | text _ _ _ => exact Tag.throughout_of_childless rfl trivial
  | number h =>
    cases h with
    | float _ _ _ => exact Tag.throughout_of_childless rfl hlegible
    | double _ _ _ => exact Tag.throughout_of_childless rfl hlegible
    | pointed _ _ _ => exact Tag.throughout_of_childless rfl hlegible
    | _ => exact Tag.throughout_of_childless rfl trivial

theorem MakesArray.printable {mark : Char} {ts : List Tag} (h : MakesArray mark ts t) :
    t.Throughout Tag.Printable := by
  cases h with
  | bytes vs => exact Tag.throughout_of_elements trivial rfl fun _ => ⟨rfl, trivial⟩
  | ints vs => exact Tag.throughout_of_elements trivial rfl fun _ => ⟨rfl, trivial⟩
  | longs _ => exact Tag.throughout_of_elements trivial rfl fun _ => ⟨rfl, trivial⟩

/-- The grammar gives lists of one kind and compounds in order, so legible values suffice. -/
theorem Denotes.printable (h : Denotes text t) (hlegible : t.Throughout Tag.Legible) :
    t.Throughout Tag.Printable := by
  induction h with
  | word _ h => exact h.printable hlegible.here
  | quoted _ => exact Tag.throughout_of_childless rfl trivial
  | @compound es inner table _ _ _ hsorted hlast ih =>
    refine Tag.throughout_compound hsorted fun e he => ?_
    -- every entry of the table is one of the entries of the text
    have hget := Table.get?_of_mem hsorted he
    rw [hlast] at hget
    have hmem := List.mem_reverse.1 (Table.mem_of_get?_eq_some hget)
    obtain ⟨part, hpart, heq⟩ := List.mem_map.1 hmem
    have hvalue : part.value = e.2 := congrArg Prod.snd heq
    rw [← hvalue]
    refine ih part hpart ?_
    rw [hvalue]
    exact hlegible.child (Tag.mem_children_compound he)
  | @list parts inner element _ _ hkinds hempty ih =>
    have hhomogeneous : TypedList.Homogeneous ⟨element, parts.map Prod.snd⟩ :=
      TypedList.homogeneous_of_kinds (by simpa using fun u a h => hkinds (a, u) h)
    have here : (Tag.list element (parts.map Prod.snd)).Printable :=
      ⟨hhomogeneous, fun hnil => hempty (List.map_eq_nil_iff.1 hnil)⟩
    refine Tag.throughout_list here fun u hu => ?_
    obtain ⟨p, hp, rfl⟩ := List.mem_map.1 hu
    obtain ⟨key, hchild⟩ := Tag.exists_mem_children_list element hu
    exact ih p hp (hlegible.child hchild)
  | array _ _ harray _ => exact harray.printable
  | padded _ _ _ ih => exact ih hlegible

end Snbt

namespace Tag

theorem ofSnbt_snbt_iff_legible {text : String} {t : Tag} (h : ofSnbt text = .ok t) :
    (ofSnbt t.snbt = .ok t ↔ t.Throughout Legible) ∧
      (t.Throughout Legible → (ofSnbt t.snbt).map snbt = .ok t.snbt) := by
  have hiff : ofSnbt t.snbt = .ok t ↔ t.Throughout Legible := by
    rw [ofSnbt_snbt_eq_ok, Snbt.reread_eq_self_iff]
    constructor
    · exact fun hprintable => hprintable.mono fun _ => Printable.legible
    · exact (Snbt.denotes_of_readChars h).printable
  refine ⟨hiff, fun hlegible => ?_⟩
  rw [hiff.2 hlegible]
  rfl

/-- One and minus infinity, as they are printed and read back. -/
theorem ofSnbt_snbt_iff_legible_doubles :
    ofSnbt " [ 1.0 , -infd ] " =
        .ok (.list (some .double) [.double 0x3FF0000000000000, .double 0xFFF0000000000000]) ∧
      ofSnbt (Tag.list (some .double)
          [.double 0x3FF0000000000000, .double 0xFFF0000000000000]).snbt =
        .ok (.list (some .double) [.double 0x3FF0000000000000, .double 0xFFF0000000000000]) := by
  have hread : ofSnbt " [ 1.0 , -infd ] " =
      .ok (.list (some .double) [.double 0x3FF0000000000000, .double 0xFFF0000000000000]) := rfl
  have hone : (double 0x3FF0000000000000).Legible := .inl ⟨false, 2 ^ 52, -52, by decide⟩
  have hminus : (double 0xFFF0000000000000).Legible := .inr (by decide)
  have hlegible : (list (some .double)
      [.double 0x3FF0000000000000, .double 0xFFF0000000000000]).Throughout Legible :=
    throughout_list trivial (List.forall_mem_cons.2 ⟨throughout_of_childless rfl hone,
      List.forall_mem_singleton.2 (throughout_of_childless rfl hminus)⟩)
  exact ⟨hread, (ofSnbt_snbt_iff_legible hread).1.2 hlegible⟩

/-- A number that is too large is read as plus infinity, whose text is read as a text. -/
theorem ofSnbt_snbt_overflow :
    ∃ t, ofSnbt "1e309d" = .ok t ∧ t.snbt = "infd" ∧ ofSnbt t.snbt ≠ .ok t ∧
      (ofSnbt t.snbt).map snbt ≠ .ok t.snbt := by
  have hread : (ofSnbt "1e309d").toOption = some (.double 0x7FF0000000000000) := by decide +kernel
  cases h : ofSnbt "1e309d" with
  | error e => rw [h] at hread; contradiction
  | ok t =>
    rw [h] at hread
    obtain rfl := Option.some.inj hread
    have hprint : (double 0x7FF0000000000000).snbt = "infd" := by decide
    have hagain : ofSnbt "infd" = .ok (.string "infd") := rfl
    have hquoted : (string "infd").snbt ≠ "infd" := by decide
    refine ⟨_, rfl, hprint, ?_, ?_⟩ <;> rw [hprint, hagain]
    · exact nofun
    · exact fun heq => hquoted (Except.ok.inj heq)

end Tag

end BlockConvert
