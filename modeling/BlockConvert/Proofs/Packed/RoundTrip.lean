import BlockConvert.Packed
import BlockConvert.Proofs.Packed.Layout
import BlockConvert.Proofs.Table.Lookup
import BlockConvert.Proofs.Tag.Throughout

set_option autoImplicit false

/-!
# Stored tags are read back

A tag that fits the layout and has no reserved key is stored, and is read back from its bytes with
whatever follows. The fields of a compound may have been written in any order. The bound on nesting
suffices because the bytes of a part are fewer than the bytes of the whole.
-/

namespace BlockConvert

namespace Raw

structure Field where
  key : String
  raw : Raw
  tag : Tag

/-- The raw value holds the tag. The fields of compounds stand in any order. -/
inductive Holds : Raw → Tag → Prop
  | atom {t : Tag} (hlist : t.kind ≠ .list) (hcompound : t.kind ≠ .compound) : Holds t.toRaw t
  | list {pairs : List (Raw × Tag)} (element : Option Kind) (h : ∀ p ∈ pairs, Holds p.1 p.2) :
      Holds (.list (pairs.map Prod.fst)) (.list element (pairs.map Prod.snd))
  | compound {fs : List Field} {table : List (String × Tag)} (h : ∀ f ∈ fs, Holds f.raw f.tag)
      (horder : (fs.map fun f => (f.key, f.tag)).Perm table) :
      Holds (.compound (fs.map fun f => (f.key, f.raw))) (.compound table)

end Raw

namespace Tag

/-- What must hold of a tag, apart from the tags inside it, to fit the layout: texts and keys are
short enough, lists and arrays too, lists declare the kind of their elements, and none if there are
none, and the entries of compounds are in order. -/
def Fits : Tag → Prop
  | string s => Packed.FitsText s
  | byteArray vs => vs.length ≤ Packed.lengthLimit
  | intArray vs => vs.length ≤ Packed.lengthLimit
  | longArray vs => vs.length ≤ Packed.lengthLimit
  | list element items =>
    TypedList.Homogeneous ⟨element, items⟩ ∧ (items = [] → element = none) ∧
      items.length ≤ Packed.lengthLimit
  | compound entries => Table.Sorted entries ∧ ∀ e ∈ entries, Packed.FitsText e.1
  | _ => True

def EmptyUntyped : Tag → Prop
  | list element items => items = [] → element = none
  | _ => True

def Unreserved : Tag → Prop
  | compound entries => ∀ e ∈ entries, e.1 ∉ Raw.reservedKeys
  | _ => True

end Tag

structure NamedTag.Storable (n : NamedTag) : Prop where
  root : n.tag.kind = .compound
  name : Packed.FitsText n.name
  fits : n.tag.Throughout Tag.Fits
  unreserved : n.tag.Throughout Tag.Unreserved

variable {t : Tag} {r : Raw} {bound : Nat}

/-! ## Tags as raw values -/

namespace Tag

def toRawEntry (e : String × Tag) : String × Raw := (e.1, e.2.toRaw)

theorem toRaws_eq_map (items : List Tag) : toRaws items = items.map toRaw := by
  induction items with
  | nil => rfl
  | cons t rest ih => rw [toRaws, ih, List.map_cons]

theorem toRawEntries_eq_map (entries : List (String × Tag)) :
    toRawEntries entries = entries.map toRawEntry := by
  induction entries with
  | nil => rfl
  | cons e rest ih => rw [toRawEntries, ih, List.map_cons, toRawEntry]

theorem kind_toRaw (t : Tag) : t.toRaw.kind = t.kind := by
  cases t <;> rfl

theorem holds_toRaw {P : Tag → Prop} (h : t.Throughout P) : Raw.Holds t.toRaw t := by
  induction h with
  | @mk t _ _ ih =>
    cases t with
    | list element items =>
      have hitems : ∀ p ∈ items.map fun u => (u.toRaw, u), Raw.Holds p.1 p.2 := fun p hp => by
        obtain ⟨u, hu, rfl⟩ := List.mem_map.1 hp
        obtain ⟨key, hchild⟩ := exists_mem_children_list element hu
        exact ih key u hchild
      have hholds := Raw.Holds.list element hitems
      simp only [List.map_map, Function.comp_def, List.map_id'] at hholds
      rwa [toRaw, toRaws_eq_map]
    | compound entries =>
      have hfields : ∀ f ∈ entries.map fun e => (⟨e.1, e.2.toRaw, e.2⟩ : Raw.Field),
          Raw.Holds f.raw f.tag := fun f hf => by
        obtain ⟨e, he, rfl⟩ := List.mem_map.1 hf
        exact ih _ e.2 (mem_children_compound he)
      have horder : ((entries.map fun e => (⟨e.1, e.2.toRaw, e.2⟩ : Raw.Field)).map
          fun f => (f.key, f.tag)).Perm entries := by
        rw [List.map_map]
        exact (List.map_id entries).symm ▸ List.Perm.refl entries
      have hholds := Raw.Holds.compound hfields horder
      rw [List.map_map] at hholds
      rwa [toRaw, toRawEntries_eq_map]
    | _ => exact .atom nofun nofun

theorem homogeneous_of_kinds {element : Option Kind} {items : List Tag}
    (h : TypedList.Homogeneous ⟨element, items⟩) (hempty : items = [] → element = none) :
    Raw.homogeneous items = .ok (.list element items) := by
  cases items with
  | nil => rw [hempty rfl]; rfl
  | cons u rest =>
    obtain ⟨helement, hfind⟩ := h.find?_eq_none
    rw [Raw.homogeneous, hfind, helement]

theorem toTags_toRaws {items : List Tag} (h : ∀ u ∈ items, u.toRaw.toTag = .ok u) :
    Raw.toTags (toRaws items) = .ok items := by
  induction items with
  | nil => rfl
  | cons u rest ih =>
    rw [toRaws, Raw.toTags, h u (by simp), ih fun v hv => h v (List.mem_cons_of_mem _ hv)]
    rfl

theorem toEntries_toRawEntries {entries : List (String × Tag)}
    (h : ∀ e ∈ entries, e.2.toRaw.toTag = .ok e.2) :
    Raw.toEntries (toRawEntries entries) = .ok entries := by
  induction entries with
  | nil => rfl
  | cons e rest ih =>
    rw [toRawEntries, Raw.toEntries, h e (by simp),
      ih fun d hd => h d (List.mem_cons_of_mem _ hd)]
    rfl

theorem toTag_toRaw_of_inOrder (h : t.Throughout InOrder) (hempty : t.Throughout EmptyUntyped) :
    t.toRaw.toTag = .ok t := by
  induction h with
  | @mk t here _ ih =>
    cases t with
    | list element items =>
      have hitems : ∀ u ∈ items, u.toRaw.toTag = .ok u := fun u hu => by
        obtain ⟨key, hchild⟩ := exists_mem_children_list element hu
        exact ih key u hchild (hempty.child hchild)
      rw [toRaw, Raw.toTag, toTags_toRaws hitems]
      exact homogeneous_of_kinds here hempty.here
    | compound entries =>
      have hentries : ∀ e ∈ entries, e.2.toRaw.toTag = .ok e.2 := fun e he =>
        ih _ e.2 (mem_children_compound he) (hempty.child (mem_children_compound he))
      rw [toRaw, Raw.toTag, toEntries_toRawEntries hentries, Except.map,
        Table.ofEntries_of_perm here (List.Perm.refl entries)]
    | _ => rfl

theorem Fits.inOrder (h : t.Fits) : t.InOrder := by
  cases t with
  | list _ _ | compound _ => exact h.1
  | _ => trivial

theorem Fits.emptyUntyped (h : t.Fits) : t.EmptyUntyped := by
  cases t with
  | list _ _ => exact h.2.1
  | _ => trivial

theorem toTag_toRaw (h : t.Throughout Fits) : t.toRaw.toTag = .ok t :=
  toTag_toRaw_of_inOrder (h.mono fun _ hfits => hfits.inOrder)
    (h.mono fun _ hfits => hfits.emptyUntyped)

theorem storableItems_toRaws {items : List Tag} (h : ∀ u ∈ items, u.toRaw.isStorable = true) :
    Raw.storableItems (toRaws items) = true := by
  induction items with
  | nil => rfl
  | cons u rest ih =>
    rw [toRaws, Raw.storableItems, h u (by simp), ih fun v hv => h v (List.mem_cons_of_mem _ hv)]
    rfl

theorem storableEntries_toRawEntries {entries : List (String × Tag)}
    (hkeys : ∀ e ∈ entries, e.1 ∉ Raw.reservedKeys)
    (h : ∀ e ∈ entries, e.2.toRaw.isStorable = true) :
    Raw.storableEntries (toRawEntries entries) = true := by
  induction entries with
  | nil => rfl
  | cons e rest ih =>
    have hrest := ih (fun d hd => hkeys d (List.mem_cons_of_mem _ hd))
      fun d hd => h d (List.mem_cons_of_mem _ hd)
    rw [toRawEntries, Raw.storableEntries, h e (by simp), hrest]
    simp [hkeys e (by simp)]

theorem isStorable_toRaw (h : t.Throughout Unreserved) : t.toRaw.isStorable = true := by
  induction h with
  | @mk t here _ ih =>
    cases t with
    | list element items =>
      refine storableItems_toRaws fun u hu => ?_
      obtain ⟨key, hchild⟩ := exists_mem_children_list element hu
      exact ih key u hchild
    | compound entries =>
      exact storableEntries_toRawEntries here fun e he => ih _ e.2 (mem_children_compound he)
    | _ => rfl

end Tag

/-! ## Payloads -/

theorem Raw.Holds.kind_eq (h : Raw.Holds r t) : r.kind = t.kind := by
  cases h with
  | atom _ _ => exact Tag.kind_toRaw t
  | list _ _ => rfl
  | compound _ _ => rfl

namespace Packed

theorem length_item_lt {items : List Raw} (h : r ∈ items) :
    (payload r).length < (payload (.list items)).length := by
  have hle := length_le_flatMap payload h
  simp only [payload, payloads_eq_flatMap, List.length_append, length_bigEndian]
  omega

theorem length_field_lt {entries : List (String × Raw)} {e : String × Raw} (h : e ∈ entries) :
    (payload e.2).length < (payload (.compound entries)).length := by
  have hle := length_le_flatMap field h
  simp only [field, List.length_append, length_bigEndian] at hle
  simp only [payload, fields_eq_flatMap, List.length_append, List.length_singleton]
  omega

theorem length_le_fields (entries : List (String × Raw)) :
    entries.length ≤ (fields entries).length := by
  induction entries with
  | nil => exact Nat.zero_le _
  | cons e rest ih =>
    simp only [fields, List.length_cons, List.length_append, length_bigEndian]
    omega

theorem takes_atom (hlist : t.kind ≠ .list) (hcompound : t.kind ≠ .compound) (hfits : t.Fits) :
    Takes (value (bound + 1) t.kind) (payload t.toRaw) t.toRaw := by
  cases t with
  | list element items => contradiction
  | compound entries => contradiction
  | byte v => exact (takes_int8 v).map Raw.byte
  | short v => exact (takes_int16 v).map Raw.short
  | int v => exact (takes_int32 v).map Raw.int
  | long v => exact (takes_int64 v).map Raw.long
  | float b =>
    have hbits : b.toNat < 256 ^ 4 := b.toNat_lt
    have h := (takes_number hbits).map fun n => Raw.float (UInt32.ofNat n)
    rwa [UInt32.ofNat_toNat] at h
  | double b =>
    have hbits : b.toNat < 256 ^ 8 := b.toNat_lt
    have h := (takes_number hbits).map fun n => Raw.double (UInt64.ofNat n)
    rwa [UInt64.ofNat_toNat] at h
  | string s => exact (takes_text hfits).map Raw.string
  | byteArray vs => exact (takes_counted hfits takes_int8).map Raw.byteArray
  | intArray vs => exact (takes_counted hfits takes_int32).map Raw.intArray
  | longArray vs => exact (takes_counted hfits takes_int64).map Raw.longArray

theorem takes_compound {fs : List Raw.Field} {table : List (String × Tag)}
    (hsorted : Table.Sorted table) (horder : (fs.map fun f => (f.key, f.tag)).Perm table)
    (hnames : ∀ e ∈ table, FitsText e.1 ∧ e.1 ∉ Raw.reservedKeys)
    (h : ∀ f ∈ fs, Takes (value bound f.raw.kind) (payload f.raw) f.tag.toRaw) :
    Takes (value (bound + 1) .compound) (payload (.compound (fs.map fun f => (f.key, f.raw))))
      (Tag.compound table).toRaw := by
  intro rest
  have hbound : fs.length < (payload (.compound (fs.map fun f => (f.key, f.raw))) ++ rest).length := by
    have hle := length_le_fields (fs.map fun f => (f.key, f.raw))
    rw [List.length_map] at hle
    simp only [payload, List.length_append, List.length_singleton]
    omega
  have hfields : fieldList (value bound)
      (payload (.compound (fs.map fun f => (f.key, f.raw))) ++ rest).length
      (payload (.compound (fs.map fun f => (f.key, f.raw))) ++ rest) =
        some (fs.map fun f => (f.key, f.tag.toRaw), rest) :=
    takes_fieldList hbound
      (fun f hf => hnames (f.key, f.tag) (horder.mem_iff.1 (List.mem_map_of_mem hf))) h rest
  have htable : Table.ofEntries (fs.map fun f => (f.key, f.tag.toRaw)) =
      table.map Tag.toRawEntry := by
    refine Table.ofEntries_of_perm (Table.sorted_of_keys ?_ hsorted) ?_
    · rw [List.map_map]
      rfl
    · have hperm := horder.map Tag.toRawEntry
      rwa [List.map_map] at hperm
  simp only [value, hfields, Option.map_some, htable, Tag.toRaw, Tag.toRawEntries_eq_map]

theorem takes_value (h : Raw.Holds r t) (hfits : t.Throughout Tag.Fits)
    (hkeys : t.Throughout Tag.Unreserved) (hbound : (payload r).length < bound) :
    Takes (value bound r.kind) (payload r) t.toRaw := by
  induction h generalizing bound with
  | @atom t hlist hcompound =>
    obtain ⟨bound, rfl⟩ := Nat.exists_eq_succ_of_ne_zero (Nat.ne_zero_of_lt hbound)
    rw [Tag.kind_toRaw]
    exact takes_atom hlist hcompound hfits.here
  | @list pairs element hpairs ih =>
    obtain ⟨bound, rfl⟩ := Nat.exists_eq_succ_of_ne_zero (Nat.ne_zero_of_lt hbound)
    obtain ⟨hhomogeneous, -, hlength⟩ := hfits.here
    rw [List.length_map] at hlength
    have hitems : ∀ p ∈ pairs, Takes (value bound p.1.kind) (payload p.1) p.2.toRaw := fun p hp => by
      obtain ⟨key, hchild⟩ := Tag.exists_mem_children_list element (List.mem_map_of_mem hp)
      have hlt := length_item_lt (List.mem_map_of_mem (f := Prod.fst) hp)
      exact ih p hp (hfits.child hchild) (hkeys.child hchild)
        (Nat.lt_of_lt_of_le hlt (Nat.le_of_lt_succ hbound))
    have hkinds : ∀ p ∈ pairs, some p.1.kind = element := fun p hp => by
      rw [(hpairs p hp).kind_eq]
      exact hhomogeneous.1 p.2 (List.mem_map_of_mem hp)
    obtain ⟨kind, hkind⟩ : ∃ kind, ∀ p ∈ pairs, p.1.kind = kind := by
      cases element with
      | none => exact ⟨.byte, fun p hp => nomatch hkinds p hp⟩
      | some kind => exact ⟨kind, fun p hp => Option.some.inj (hkinds p hp)⟩
    have hread := takes_listItems hlength hkind fun p hp => hkind p hp ▸ hitems p hp
    have hvalue := hread.map Raw.list
    rw [Tag.toRaw, Tag.toRaws_eq_map, List.map_map]
    exact hvalue
  | @compound fs table hfs horder ih =>
    obtain ⟨bound, rfl⟩ := Nat.exists_eq_succ_of_ne_zero (Nat.ne_zero_of_lt hbound)
    refine takes_compound hfits.here.1 horder
      (fun e he => ⟨hfits.here.2 e he, hkeys.here e he⟩) fun f hf => ?_
    have hmem : (f.key, f.tag) ∈ table := horder.mem_iff.1 (List.mem_map_of_mem hf)
    have hchild := Tag.mem_children_compound hmem
    have hlt := length_field_lt (List.mem_map_of_mem (f := fun f => (f.key, f.raw)) hf)
    exact ih f hf (hfits.child hchild) (hkeys.child hchild)
      (Nat.lt_of_lt_of_le hlt (Nat.le_of_lt_succ hbound))

theorem takes_root {entries : List (String × Raw)} {name : String} (hname : FitsText name)
    (h : Raw.Holds (.compound entries) t) (hfits : t.Throughout Tag.Fits)
    (hkeys : t.Throughout Tag.Unreserved) :
    Takes root (rootBytes name entries) (name, t.toRaw) := by
  intro rest
  have hbytes : rootBytes name entries ++ rest = bigEndian 1 Kind.compound.id ++
      (textBytes name ++ (payload (.compound entries) ++ rest)) := by
    rw [rootBytes, List.append_assoc, List.append_assoc]
  have hbound : (payload (.compound entries)).length <
      (rootBytes name entries ++ rest).length + 1 := by
    simp only [rootBytes, List.length_append]
    omega
  have hvalue := takes_value h hfits hkeys hbound rest
  rw [Raw.kind] at hvalue
  rw [hbytes] at hvalue ⊢
  rw [root, takes_id]
  simp only [bind, Option.bind, if_true, takes_text hname _, hvalue]
  rfl

end Packed

namespace NamedTag

theorem headerName_rootBytes {entries : List (String × Raw)} {name : String}
    (hname : Packed.FitsText name) (rest : List UInt8) :
    headerName (Packed.rootBytes name entries ++ rest) = .ok name := by
  have hfits : (Text.encodeModified name.toList).length < 256 ^ 2 := Nat.lt_succ_of_le hname
  have hid : Packed.bigEndian 1 Kind.compound.id = [10] := rfl
  have hkind : (10 : UInt8).toNat = Kind.compound.id := rfl
  rw [Packed.rootBytes, Packed.textBytes, hid, List.append_assoc, List.append_assoc,
    List.append_assoc, List.singleton_append, headerName]
  simp only [hkind, ne_eq, not_true, if_false, Packed.takes_number hfits _,
    Packed.takes_takeBytes _ _, Text.decodeStored?_encodeModified, String.ofList_toList]

theorem ofBytes_toBytes {n : NamedTag} (h : n.Storable) :
    (∃ entries, Raw.Holds (.compound entries) n.tag ∧
      n.toBytes = .ok (Packed.rootBytes n.name entries)) ∧
    ∀ entries, Raw.Holds (.compound entries) n.tag →
      ∀ rest, ofBytes (Packed.rootBytes n.name entries ++ rest) = .ok n := by
  obtain ⟨name, t⟩ := n
  obtain ⟨hroot, hname, hfits, hkeys⟩ := h
  refine ⟨?_, fun entries hholds rest => ?_⟩
  · cases t with
    | compound table =>
      have hstorable : Raw.storableEntries (Tag.toRawEntries table) = true :=
        Tag.isStorable_toRaw hkeys
      refine ⟨Tag.toRawEntries table, Tag.holds_toRaw hfits, ?_⟩
      rw [toBytes]
      exact if_pos hstorable
    | _ => contradiction
  · rw [ofBytes, headerName_rootBytes hname, Packed.takes_root hname hholds hfits hkeys rest]
    simp only [bind, Except.bind, Tag.toTag_toRaw hfits]

/-- A text with a zero and a character beyond the basic plane, and lists with and without a kind. -/
def sample : NamedTag :=
  ⟨"b\x00", .compound
    [("", .list none []), ("items", .list (some .compound) [.compound [("count", .byte 1)]]),
      ("t", .string "𝄞")]⟩

theorem sample_storable : sample.Storable := by
  have hcount : (Tag.compound [("count", .byte 1)]).Fits := by
    unfold Tag.Fits Table.Sorted Packed.FitsText
    decide
  have hroot : sample.tag.Fits := by
    unfold sample Tag.Fits Table.Sorted Packed.FitsText
    decide
  have htext : (Tag.string "𝄞").Fits := by
    unfold Tag.Fits Packed.FitsText
    decide
  have hnone : (Tag.list none []).Fits := ⟨⟨by decide, by decide⟩, fun _ => rfl, by decide⟩
  have hitems : (Tag.list (some .compound) [.compound [("count", .byte 1)]]).Fits :=
    ⟨⟨by decide, by decide⟩, nofun, by decide⟩
  have hall : sample.tag.Throughout fun t => t.Fits ∧ t.Unreserved := by
    refine Tag.throughout_compound ⟨hroot, by unfold Tag.Unreserved; decide⟩ ?_
    simp only [List.forall_mem_cons, List.not_mem_nil, false_implies, implies_true, and_true]
    refine ⟨Tag.throughout_of_childless rfl ⟨hnone, trivial⟩, ?_,
      Tag.throughout_of_childless rfl ⟨htext, trivial⟩⟩
    refine Tag.throughout_list ⟨hitems, trivial⟩ (List.forall_mem_singleton.2 ?_)
    refine Tag.throughout_compound ⟨hcount, by unfold Tag.Unreserved; decide⟩
      (List.forall_mem_singleton.2 ?_)
    exact Tag.throughout_of_childless rfl ⟨trivial, trivial⟩
  exact ⟨rfl, by unfold Packed.FitsText; decide, hall.mono fun _ h => h.1,
    hall.mono fun _ h => h.2⟩

theorem ofBytes_toBytes_sample : sample.Storable ∧
    (∃ entries, Raw.Holds (.compound entries) sample.tag ∧
      sample.toBytes = .ok (Packed.rootBytes sample.name entries)) ∧
    ∀ entries, Raw.Holds (.compound entries) sample.tag →
      ∀ rest, ofBytes (Packed.rootBytes sample.name entries ++ rest) = .ok sample :=
  ⟨sample_storable, ofBytes_toBytes sample_storable⟩

/-- The layout has room for a key that is set aside for arrays, but it is not written. -/
theorem toBytes_reserved : ∃ n : NamedTag, n.tag.kind = .compound ∧ Packed.FitsText n.name ∧
    n.tag.Throughout Tag.Fits ∧ n.toBytes = .error .malformed := by
  refine ⟨⟨"", .compound [("__fastnbt_int_array", .int 1)]⟩, rfl, ?_, ?_, rfl⟩
  · unfold Packed.FitsText
    decide
  · refine Tag.throughout_compound ⟨by unfold Table.Sorted; decide, ?_⟩ ?_
    · unfold Packed.FitsText
      decide
    · simpa using Tag.throughout_of_childless rfl trivial

end NamedTag

end BlockConvert
