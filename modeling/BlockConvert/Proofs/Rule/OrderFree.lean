import BlockConvert.Proofs.Rule.Places
import BlockConvert.Proofs.Table.Lookup
import Mathlib.Data.List.Nodup

set_option autoImplicit false

/-!
# Decoders that ignore the order of members

A decoder is free of order at a place if it reads alike documents there the same. The parts that
decoders are made of keep this, except that the list of the members of an object is in order: a
dictionary is free of it because equal keys are the only entries whose order counts.
-/

namespace BlockConvert.Rule

open Json (Decoder Fields record? membersNamed)
open Json.Decoder

def OrderFree {α : Type} (p : Place) (d : Decoder α) : Prop := ∀ j j', Alike p j j' → d j = d j'

variable {α β κ : Type} {p q : Place} {d : Decoder α} {j j' : Json} {pairs : List (Json × Json)}
  {fs : List Member} {ms others : List (Option String × Json)} {field : String}

/-! ## Results in order -/

theorem mapM_eq_of_map_eq {g : β → Option α} {bs cs : List β} (h : bs.map g = cs.map g) :
    bs.mapM g = cs.mapM g := by
  have hresults (bs : List β) : bs.mapM g = (bs.map g).mapM id := by
    rw [List.mapM_map]
    rfl
  rw [hresults, hresults, h]

/-- Items in another order give the same results in another order, or fail as well. -/
theorem mapM_perm (g : β → Option α) {bs cs : List β} (h : bs.Perm cs) :
    Option.Rel List.Perm (bs.mapM g) (cs.mapM g) := by
  induction h with
  | nil => exact .some .nil
  | @cons b bs cs _ ih =>
    rw [List.mapM_cons, List.mapM_cons]
    cases g b with
    | none => exact .none
    | some a =>
      generalize bs.mapM g = results, cs.mapM g = results' at ih ⊢
      cases ih with
      | none => exact .none
      | some hperm => exact .some (hperm.cons a)
  | swap b c rest =>
    simp only [List.mapM_cons]
    cases g b <;> cases g c <;> cases rest.mapM g <;> first | exact .none | exact .some (.swap ..)
  | @trans bs cs ds _ _ ih ih' =>
    generalize bs.mapM g = results, cs.mapM g = results', ds.mapM g = results'' at ih ih' ⊢
    cases ih with
    | none => exact ih'
    | some hperm =>
      cases ih' with
      | some hperm' => exact .some (hperm.trans hperm')

theorem bind_eq_of_perm {f : List β → Option α} {results results' : Option (List β)}
    (h : Option.Rel List.Perm results results')
    (hf : ∀ bs cs, results = some bs → bs.Perm cs → f bs = f cs) :
    results.bind f = results'.bind f := by
  cases h with
  | none => rfl
  | some hperm => exact hf _ _ rfl hperm

theorem mapM_eq_some {g : β → Option α} {bs : List β} {as : List α} :
    bs.mapM g = some as ↔ List.Forall₂ (fun b a => g b = some a) bs as := by
  induction bs generalizing as with
  | nil => cases as <;> simp
  | cons b rest ih => cases as <;> simp [List.mapM_cons, Option.bind_eq_some_iff, ih]

/-- Where every result has the key of its item, the keys of the items are those of the results. -/
theorem filterMap_eq_keys {g : β → Option (κ × α)} {key : β → Option κ}
    (hkey : ∀ b e, g b = some e → key b = some e.1) {bs : List β} {es : List (κ × α)}
    (h : bs.mapM g = some es) : bs.filterMap key = es.map Prod.fst := by
  have hresults := mapM_eq_some.1 h
  clear h
  induction hresults with
  | nil => rfl
  | cons hb _ ih => rw [List.filterMap_cons_some (hkey _ _ hb), ih, List.map_cons]

/-! ## Atoms and arrays -/

theorem orderFree_of_atoms (harray : ∀ items, d (.array items) = none)
    (hobject : ∀ ms, d (.object ms) = none) : OrderFree p d := by
  intro j j' h
  refine h.cases (fun _ _ => rfl) (fun pairs _ => ?_) fun fs others _ => ?_
  · rw [harray, harray]
  · rw [hobject, hobject]

theorem orderFree_text : OrderFree p text := orderFree_of_atoms (fun _ => rfl) fun _ => rfl

theorem orderFree_int32 : OrderFree p int32 := orderFree_of_atoms (fun _ => rfl) fun _ => rfl

theorem orderFree_tag : OrderFree p tag := orderFree_of_atoms (fun _ => rfl) fun _ => rfl

theorem orderFree_pathKey : OrderFree p pathKey := orderFree_of_atoms (fun _ => rfl) fun _ => rfl

theorem OrderFree.map (h : OrderFree p d) (make : α → β) : OrderFree p fun j => (d j).map make :=
  fun j j' hj => congrArg (Option.map make) (h j j' hj)

theorem OrderFree.list (hd : OrderFree q d)
    (hitem : ∀ items i, (p.resolve (.array items)).item i = q) : OrderFree p (list d) := by
  intro j j' h
  refine h.cases (fun _ _ => rfl) (fun pairs hpairs => ?_) fun fs others _ => rfl
  exact mapM_eq_of_map_eq (map_fst_eq_map_snd fun i x hx => hd _ _ (hitem _ i ▸ hpairs i x hx))

theorem OrderFree.pair {first : Decoder α} {second : Decoder β} (hfirst : OrderFree .data first)
    (hsecond : OrderFree .data second) : OrderFree .data (pair first second) := by
  intro j j' h
  refine h.cases (fun _ _ => rfl) (fun pairs hpairs => ?_) fun fs others _ => rfl
  match pairs with
  | [] | [_] | _ :: _ :: _ :: _ => rfl
  | [a, b] =>
    have ha : first a.1 = first a.2 := hfirst _ _ (hpairs 0 a rfl)
    have hb : second b.1 = second b.2 := hsecond _ _ (hpairs 1 b rfl)
    simp only [List.map_cons, List.map_nil, Json.Decoder.pair, ha, hb]

theorem OrderFree.triple (hd : OrderFree .data d) : OrderFree .data (triple d) := by
  intro j j' h
  refine h.cases (fun _ _ => rfl) (fun pairs hpairs => ?_) fun fs others _ => rfl
  match pairs with
  | [] | [_] | [_, _] | _ :: _ :: _ :: _ :: _ => rfl
  | [a, b, c] =>
    have ha : d a.1 = d a.2 := hd _ _ (hpairs 0 a rfl)
    have hb : d b.1 = d b.2 := hd _ _ (hpairs 1 b rfl)
    have hc : d c.1 = d c.2 := hd _ _ (hpairs 2 c rfl)
    simp only [List.map_cons, List.map_nil, Json.Decoder.triple, ha, hb, hc]

theorem OrderFree.nullable (hd : OrderFree p d) : OrderFree p (nullable d) := by
  intro j j' h
  have hsame := hd j j' h
  revert hsame
  refine h.cases (fun _ _ _ => rfl) (fun pairs _ hsame => ?_) fun fs others _ hsame => ?_
  · exact congrArg (Option.map some) hsame
  · exact congrArg (Option.map some) hsame

theorem OrderFree.oneOrMany (hd : OrderFree .data d) : OrderFree .data (oneOrMany d) := by
  intro j j' h
  have hlist : OrderFree .data (Json.Decoder.list d) := hd.list fun _ _ => rfl
  rw [Json.Decoder.oneOrMany, Json.Decoder.oneOrMany, hlist j j' h, hd j j' h]

/-! ## Names -/

theorem name_object_of_ne (whole : Bool) (read? : String → Option α) (h : ms.length ≠ 1) :
    Json.Decoder.name whole read? (.object ms) = none := by
  unfold Json.Decoder.name
  split <;> simp_all

/-- Whether nothing stands under a name is the same in alike documents. -/
theorem name_single (whole : Bool) (read? : String → Option α) (key : Option String)
    (h : Alike p j j') :
    Json.Decoder.name whole read? (.object [(key, j)]) =
      Json.Decoder.name whole read? (.object [(key, j')]) := by
  cases key with
  | none => rfl
  | some s =>
    refine h.cases (fun _ _ => rfl) (fun pairs _ => rfl) fun fs others hmembers => ?_
    have hlength : fs.length = others.length := by simpa using hmembers.moved.length_eq
    match fs, others with
    | [], [] => rfl
    | _ :: _, _ :: _ => rfl

theorem orderFree_name (whole : Bool) (read? : String → Option α) :
    OrderFree p (Json.Decoder.name whole read?) := by
  intro j j' h
  refine h.cases (fun _ _ => rfl) (fun pairs _ => rfl) fun fs others hmembers => ?_
  match fs with
  | [f] =>
    have hother : others = [f.new] := (List.singleton_perm.1 hmembers.moved).symm
    rw [hother]
    exact name_single whole read? f.key (hmembers.alike f (by simp))
  | [] | _ :: _ :: _ =>
    have hlength := hmembers.moved.length_eq
    rw [List.length_map] at hlength
    rw [name_object_of_ne, name_object_of_ne]
    · simp [← hlength]
    · simp

/-! ## Objects by their keys -/

def entryOf (value : Decoder α) (m : Option String × Json) : Option (String × α) := do
  let key ← m.1
  let v ← value m.2
  return (key, v)

theorem members_object (value : Decoder α) (ms : List (Option String × Json)) :
    members value (.object ms) = ms.mapM (entryOf value) :=
  rfl

theorem entryOf_eq_some {value : Decoder α} {m : Option String × Json} {e : String × α} :
    entryOf value m = some e ↔ m.1 = some e.1 ∧ value m.2 = some e.2 := by
  simp [entryOf, Option.bind_eq_some_iff, Prod.ext_iff]

theorem members_eq_some {value : Decoder α} {es : List (String × α)} :
    members value j = some es ↔ ∃ ms, j = .object ms ∧
      List.Forall₂ (fun m e => m.1 = some e.1 ∧ value m.2 = some e.2) ms es := by
  cases j with
  | object ms => simp [members_object, mapM_eq_some, entryOf_eq_some]
  | _ => simp [members]

theorem members_keys {value : Decoder α} {es : List (String × α)}
    (h : members value (.object ms) = some es) : ms.filterMap Prod.fst = es.map Prod.fst :=
  filterMap_eq_keys (fun _ _ h => (entryOf_eq_some.1 h).1) h

/-- Before members are put in another order they are decoded to the same entries. -/
theorem MembersAlike.members_new (h : MembersAlike p fs others) (hd : OrderFree q d)
    (hmember : ∀ ms key, (p.resolve (.object ms)).member key = q) :
    members d (.object (fs.map Member.old)) = members d (.object (fs.map Member.new)) := by
  have hentry (f : Member) (hf : f ∈ fs) : entryOf d f.old = entryOf d f.new := by
    have hvalue : d f.before = d f.after := hd _ _ (hmember _ f.key ▸ h.alike f hf)
    rw [entryOf, entryOf]
    simp only [Member.old, Member.new, hvalue]
  rw [members_object, members_object]
  refine mapM_eq_of_map_eq ?_
  rw [List.map_map, List.map_map]
  exact List.map_congr_left hentry

theorem MembersAlike.members_perm (h : MembersAlike p fs others) (hd : OrderFree q d)
    (hmember : ∀ ms key, (p.resolve (.object ms)).member key = q) :
    Option.Rel List.Perm (members d (.object (fs.map Member.old))) (members d (.object others)) :=
  h.members_new hd hmember ▸ mapM_perm (entryOf d) h.moved

theorem filterMap_key_eq_keys {es : List (String × α)}
    (hes : members d (.object (fs.map Member.old)) = some es) :
    fs.filterMap Member.key = es.map Prod.fst := by
  rw [← members_keys hes, List.filterMap_map]
  rfl

theorem OrderFree.members (hd : OrderFree .tagCases d) :
    OrderFree .propertyCases (Decoder.members d) := by
  intro j j' h
  refine h.cases (fun _ _ => rfl) (fun pairs _ => rfl) fun fs others hmembers => ?_
  rw [hmembers.members_new hd fun _ _ => rfl, hmembers.kept rfl]

theorem OrderFree.dict (hd : OrderFree q d)
    (hmember : ∀ ms key, (p.resolve (.object ms)).member key = q) :
    OrderFree p (Decoder.dict d) := by
  intro j j' h
  refine h.cases (fun _ _ => rfl) (fun pairs _ => rfl) fun fs others hmembers => ?_
  rw [Decoder.dict, Decoder.dict, Option.map_eq_bind, Option.map_eq_bind]
  refine bind_eq_of_perm (hmembers.members_perm hd hmember) fun es es' hes hperm => ?_
  have hkeys : (es.map Prod.fst).Nodup := filterMap_key_eq_keys hes ▸ hmembers.keys
  exact congrArg some (Dict.eq_of_entries (Table.ofEntries_eq_of_perm hkeys hperm))

def tagEntry (e : String × α) : Option (Tag × α) := (Tag.ofSnbt e.1).toOption.map (·, e.2)

theorem tagEntry_key {e : String × α} {e' : Tag × α} (h : tagEntry e = some e') :
    (Tag.ofSnbt e.1).toOption = some e'.1 := by
  obtain ⟨t, ht, h⟩ := Option.map_eq_some_iff.1 h
  cases h
  exact ht

theorem tagTable_eq (d : Decoder α) (j : Json) :
    tagTable d j = (Decoder.members d j).bind fun es =>
      (es.mapM tagEntry).bind fun entries => some (Table.ofEntries entries) :=
  rfl

theorem OrderFree.tagTable (hd : OrderFree (.rules true) d) :
    OrderFree .tagCases (Decoder.tagTable d) := by
  intro j j' h
  refine h.cases (fun _ _ => rfl) (fun pairs _ => rfl) fun fs others hmembers => ?_
  rw [tagTable_eq, tagTable_eq]
  refine bind_eq_of_perm (hmembers.members_perm hd fun _ _ => rfl) fun es es' hes hperm => ?_
  refine bind_eq_of_perm (mapM_perm tagEntry hperm) fun entries entries' hentries hperm' => ?_
  have hkeys : (entries.map Prod.fst).Nodup := by
    have htags : es.filterMap (fun e => (Tag.ofSnbt e.1).toOption) = entries.map Prod.fst :=
      filterMap_eq_keys (fun _ _ => tagEntry_key) hentries
    have hfound : (fs.filterMap Member.key).filterMap (fun key => (Tag.ofSnbt key).toOption) =
        es.filterMap (fun e => (Tag.ofSnbt e.1).toOption) := by
      rw [filterMap_key_eq_keys hes, List.filterMap_map]
      rfl
    rw [← htags, ← hfound, List.filterMap_filterMap]
    exact hmembers.tags rfl
  exact congrArg some (Table.ofEntries_eq_of_perm hkeys hperm')

/-! ## Records -/

def FieldsAlike (p : Place) (f f' : Fields) : Prop :=
  ∀ field, Option.Rel (Alike (p.member (some field))) (f field) (f' field)

theorem lookup_zip_rel {R : String → Json → Json → Prop} {names : List String}
    (h : ∀ (i : Nat) (name : String) (x : Json × Json), names[i]? = some name →
      pairs[i]? = some x → R name x.1 x.2) (field : String) :
    Option.Rel (R field) ((names.zip (pairs.map Prod.fst)).lookup field)
      ((names.zip (pairs.map Prod.snd)).lookup field) := by
  induction names generalizing pairs with
  | nil => exact .none
  | cons name names ih =>
    cases pairs with
    | nil => exact .none
    | cons x pairs =>
      simp only [List.map_cons, List.zip_cons_cons, List.lookup_cons]
      cases hname : field == name with
      | true =>
        rw [eq_of_beq hname]
        exact .some (h 0 name x rfl rfl)
      | false => exact ih fun i name x hi hx => h (i + 1) name x hi hx

theorem membersNamed_rel {R : Json → Json → Prop}
    (h : ∀ f ∈ fs, f.key = some field → R f.before f.after) :
    Option.Rel R (membersNamed field (fs.map Member.old)).head?
      (membersNamed field (fs.map Member.new)).head? := by
  induction fs with
  | nil => exact .none
  | cons f rest ih =>
    obtain ⟨key, before, after⟩ := f
    have hrest := ih fun f hf => h f (List.mem_cons_of_mem _ hf)
    by_cases hkey : key = some field
    · have hR : R before after := h _ List.mem_cons_self hkey
      simpa [membersNamed, Member.old, Member.new, hkey] using Option.Rel.some hR
    · simpa [membersNamed, Member.old, Member.new, hkey] using hrest

theorem length_membersNamed (field : String) (ms : List (Option String × Json)) :
    (membersNamed field ms).length = (ms.filterMap Prod.fst).count field := by
  rw [membersNamed, List.length_filterMap_eq_countP, List.count_filterMap]
  refine List.countP_congr fun m _ => ?_
  by_cases hkey : m.1 = some field <;> simp [hkey]

theorem length_membersNamed_le (h : (ms.filterMap Prod.fst).Nodup) (field : String) :
    (membersNamed field ms).length ≤ 1 :=
  length_membersNamed field ms ▸ List.nodup_iff_count_le_one.1 h field

theorem eq_of_perm_of_length_le {bs cs : List β} (h : bs.Perm cs) (hlength : bs.length ≤ 1) :
    bs = cs := by
  match bs with
  | [] => exact h.nil_eq
  | [b] => exact List.singleton_perm.1 h

namespace MembersAlike

theorem keys_old (h : MembersAlike p fs others) :
    ((fs.map Member.old).filterMap Prod.fst).Nodup := by
  rw [List.filterMap_map]
  exact h.keys

theorem keys_others (h : MembersAlike p fs others) : (others.filterMap Prod.fst).Nodup := by
  refine (h.moved.filterMap Prod.fst).nodup_iff.1 ?_
  rw [List.filterMap_map]
  exact h.keys

theorem field_rel (h : MembersAlike p fs others) (field : String) :
    Option.Rel (Alike ((p.resolve (.object (fs.map Member.old))).member (some field)))
      (membersNamed field (fs.map Member.old)).head? (membersNamed field others).head? := by
  have hsame : membersNamed field (fs.map Member.new) = membersNamed field others := by
    refine eq_of_perm_of_length_le (h.moved.filterMap _) (length_membersNamed_le ?_ field)
    exact (h.moved.filterMap Prod.fst).nodup_iff.2 h.keys_others
  rw [← hsame]
  exact membersNamed_rel fun f hf hkey => hkey ▸ h.alike f hf

theorem all_isSome (h : MembersAlike p fs others) :
    (fs.map Member.old).all (fun m => m.1.isSome) = others.all fun m => m.1.isSome := by
  have hperm := map_old_perm (fun m => m.1.isSome) h.moved fun _ _ => rfl
  simpa only [List.all_map, Function.id_comp] using hperm.all_eq (f := id)

end MembersAlike

theorem record_object {names : List String} (h : (ms.filterMap Prod.fst).Nodup) :
    record? names (.object ms) = if ms.all fun m => m.1.isSome then
      some fun field => (membersNamed field ms).head? else none := by
  have hnames : names.all (fun name => decide ((membersNamed name ms).length ≤ 1)) = true :=
    List.all_eq_true.2 fun name _ => decide_eq_true (length_membersNamed_le h name)
  rw [record?, hnames, Bool.and_true]

/-- Alike records have alike fields. An array has its items where the object has the fields of
these names. -/
theorem Alike.record_rel {names : List String} (h : Alike p j j') (hplain : ∀ j, p.resolve j = p)
    (hitem : names.mapIdx (fun i _ => p.item i) = names.map fun name => p.member (some name)) :
    Option.Rel (FieldsAlike p) (record? names j) (record? names j') := by
  have hplace (i : Nat) (name : String) (hname : names[i]? = some name) :
      p.item i = p.member (some name) := by
    simpa [hname] using congrArg (fun places => places[i]?) hitem
  revert hplain
  refine h.cases (fun j hatom _ => ?_) (fun pairs hpairs hplain => ?_)
    fun fs others hmembers hplain => ?_
  · cases j with
    | array _ => exact absurd hatom (depth_array_ne _)
    | object _ => exact absurd hatom (depth_object_ne _)
    | _ => exact .none
  · rw [record?, record?, List.length_map, List.length_map]
    split
    · refine .some (lookup_zip_rel fun i name x hname hx => ?_)
      rw [← hplace i name hname, ← hplain (.array (pairs.map Prod.fst))]
      exact hpairs i x hx
    · exact .none
  · rw [record_object hmembers.keys_old, record_object hmembers.keys_others, hmembers.all_isSome]
    split
    · refine .some fun field => ?_
      rw [← hplain (.object (fs.map Member.old))]
      exact hmembers.field_rel field
    · exact .none

namespace FieldsAlike

variable {f f' : Fields}

theorem required (h : FieldsAlike p f f') (field : String)
    (hd : OrderFree (p.member (some field)) d) : f.required field d = f'.required field d := by
  rw [Fields.required, Fields.required]
  have hfield := h field
  generalize f field = value, f' field = value' at hfield
  cases hfield with
  | none => rfl
  | some hj => exact hd _ _ hj

theorem withDefault (h : FieldsAlike p f f') (field : String) (default : α)
    (hd : OrderFree (p.member (some field)) d) :
    f.withDefault field default d = f'.withDefault field default d := by
  rw [Fields.withDefault, Fields.withDefault]
  have hfield := h field
  generalize f field = value, f' field = value' at hfield
  cases hfield with
  | none => rfl
  | some hj => exact hd _ _ hj

theorem optional (h : FieldsAlike p f f') (field : String)
    (hd : OrderFree (p.member (some field)) d) : f.optional field d = f'.optional field d :=
  h.withDefault field none hd.nullable

end FieldsAlike

/-- What is made of the fields of a record is free of order if it is the same for alike fields. -/
theorem OrderFree.record {names : List String} {make : Fields → Option α}
    (hplain : ∀ j, p.resolve j = p)
    (hitem : names.mapIdx (fun i _ => p.item i) = names.map fun name => p.member (some name))
    (hmake : ∀ f f', FieldsAlike p f f' → make f = make f') :
    OrderFree p fun j => (record? names j).bind make := by
  intro j j' h
  have hrel := h.record_rel hplain hitem
  beta_reduce
  generalize record? names j = fields, record? names j' = fields' at hrel ⊢
  cases hrel with
  | none => rfl
  | some hfields => exact hmake _ _ hfields

end BlockConvert.Rule
