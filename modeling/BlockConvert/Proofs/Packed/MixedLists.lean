import BlockConvert.Proofs.Packed.RoundTrip
import BlockConvert.Proofs.Snbt.Elements
import Mathlib.Data.List.Forall2

set_option autoImplicit false

/-!
# Lists of several kinds

A raw value becomes a tag exactly if no list in it, however deep, mixes kinds. The tag holds what
the raw value held, and a refusal names the kinds of two elements of a list that mixes them. A list
that passes the check is one that takes its elements one by one.
-/

namespace BlockConvert

namespace Raw

inductive Occurs : Raw → Raw → Prop
  | here {r : Raw} : Occurs r r
  | item {r u : Raw} {items : List Raw} (hmem : u ∈ items) (h : Occurs r u) : Occurs r (.list items)
  | entry {r : Raw} {e : String × Raw} {entries : List (String × Raw)} (hmem : e ∈ entries)
      (h : Occurs r e.2) : Occurs r (.compound entries)

def OneKind (items : List Raw) : Prop := ∀ a ∈ items, ∀ b ∈ items, a.kind = b.kind

/-- The first kind, and the first one after it that differs. -/
def FirstMix (kinds : List Kind) (e : MixedKinds) : Prop :=
  ∃ same rest, kinds = e.first :: (same ++ e.second :: rest) ∧ (∀ k ∈ same, k = e.first) ∧
    e.second ≠ e.first

def Keyed (r : Raw) : Prop :=
  ∀ entries, Occurs (.compound entries) r → (entries.map Prod.fst).Nodup

/-- The raw values differ at most in the order of the entries of compounds. -/
inductive Same : Raw → Raw → Prop
  | atom {r : Raw} (hlist : r.kind ≠ .list) (hcompound : r.kind ≠ .compound) : Same r r
  | list {items others : List Raw} (h : List.Forall₂ Same items others) :
      Same (.list items) (.list others)
  | compound {entries fs others : List (String × Raw)}
      (hkeys : fs.map Prod.fst = entries.map Prod.fst)
      (h : List.Forall₂ Same (entries.map Prod.snd) (fs.map Prod.snd)) (horder : fs.Perm others) :
      Same (.compound entries) (.compound others)

/-- Takes tags into a list one by one, each of the kind of those before it; nothing if the list
refuses one that has this kind. -/
def takeAll (l : TypedList) : List Tag → Except MixedKinds (Option TypedList)
  | [] => .ok (some l)
  | t :: rest =>
    match l.element.filter fun k => k != t.kind with
    | some first => .error ⟨first, t.kind⟩
    | none =>
      match l.push? t with
      | some longer => takeAll longer rest
      | none => .ok none

variable {r u : Raw} {items : List Raw} {entries : List (String × Raw)} {t : Tag} {ts : List Tag}
  {e : MixedKinds}

theorem byParts {P : Raw → Prop} (atom : ∀ r : Raw, r.kind ≠ .list → r.kind ≠ .compound → P r)
    (list : ∀ items, (∀ u ∈ items, P u) → P (.list items))
    (compound : ∀ entries, (∀ f ∈ entries, P f.2) → P (.compound entries)) : ∀ r, P r
  | .list items => list items fun u hu =>
      have := List.sizeOf_lt_of_mem hu
      byParts atom list compound u
  | .compound entries => compound entries fun f hf =>
      have := List.sizeOf_lt_of_mem hf
      have : sizeOf f.2 < sizeOf f := by rw [Prod.mk.sizeOf_spec]; omega
      byParts atom list compound f.2
  | .byte _ | .short _ | .int _ | .long _ | .float _ | .double _ | .byteArray _ | .string _
  | .intArray _ | .longArray _ => atom _ nofun nofun
termination_by r => sizeOf r
decreasing_by
  all_goals simp_wf
  all_goals omega

/-! ## Lists of kinds -/

theorem FirstMix.not_oneKind (h : FirstMix (items.map kind) e) : ¬OneKind items := by
  intro hone
  obtain ⟨same, rest, hkinds, -, hne⟩ := h
  obtain ⟨a, ha, hfirst⟩ : ∃ a ∈ items, kind a = e.first :=
    List.mem_map.1 (hkinds ▸ List.mem_cons_self)
  obtain ⟨b, hb, hsecond⟩ : ∃ b ∈ items, kind b = e.second :=
    List.mem_map.1 (hkinds ▸ by simp)
  exact hne (hsecond.symm.trans ((hone b hb a ha).trans hfirst))

theorem homogeneous_eq_ok (h : homogeneous ts = .ok t) : ∃ element, t = .list element ts ∧
    TypedList.Homogeneous ⟨element, ts⟩ := by
  cases ts with
  | nil =>
    cases h
    exact ⟨none, rfl, TypedList.homogeneous_of_kinds (by simp)⟩
  | cons u rest =>
    rw [homogeneous] at h
    split at h
    · contradiction
    · rename_i hfind
      cases h
      refine ⟨some u.kind, rfl, TypedList.homogeneous_of_kinds fun v hv => ?_⟩
      have hkind : v.kind = u.kind := by simpa using List.find?_eq_none.1 hfind v hv
      rw [hkind]

theorem homogeneous_eq_error (h : homogeneous ts = .error e) : FirstMix (ts.map Tag.kind) e := by
  cases ts with
  | nil => contradiction
  | cons u rest =>
    rw [homogeneous] at h
    split at h
    · rename_i v hfind
      cases h
      obtain ⟨hv, before, behind, hsplit, hsame⟩ := List.find?_eq_some_iff_append.1 hfind
      cases before with
      | nil =>
        cases hsplit
        simp at hv
      | cons w before =>
        cases hsplit
        refine ⟨before.map Tag.kind, behind.map Tag.kind, by simp, fun k hk => ?_,
          by simpa using hv⟩
        obtain ⟨x, hx, rfl⟩ := List.mem_map.1 hk
        simpa using hsame x (List.mem_cons_of_mem _ hx)
    · contradiction

/-! ## Parts of a raw value -/

theorem toTags_eq_mapM (items : List Raw) : toTags items = items.mapM toTag := by
  induction items with
  | nil => rfl
  | cons r rest ih => rw [toTags, List.mapM_cons, ih]

def toEntry (f : String × Raw) : Except MixedKinds (String × Tag) := (toTag f.2).map (f.1, ·)

theorem toEntries_eq_mapM (entries : List (String × Raw)) :
    toEntries entries = entries.mapM toEntry := by
  induction entries with
  | nil => rfl
  | cons f rest ih =>
    rw [toEntries, List.mapM_cons, ih, toEntry]
    cases toTag f.2 <;> rfl

theorem toEntry_eq_ok {f : String × Raw} {d : String × Tag} :
    toEntry f = .ok d ↔ d.1 = f.1 ∧ toTag f.2 = .ok d.2 := by
  obtain ⟨key, t⟩ := d
  rw [toEntry, Snbt.map_eq_ok]
  constructor
  · rintro ⟨u, hu, heq⟩
    cases heq
    exact ⟨rfl, hu⟩
  · rintro ⟨rfl, ht⟩
    exact ⟨t, ht, rfl⟩

theorem toTag_list_eq_ok (h : (list items).toTag = .ok t) : ∃ element ts, t = .list element ts ∧
    TypedList.Homogeneous ⟨element, ts⟩ ∧ List.Forall₂ (fun r u => toTag r = .ok u) items ts := by
  obtain ⟨ts, hts, hlist⟩ := Snbt.bind_eq_ok.1 h
  obtain ⟨element, rfl, hhomogeneous⟩ := homogeneous_eq_ok hlist
  rw [toTags_eq_mapM, Snbt.mapM_eq_ok] at hts
  exact ⟨element, ts, rfl, hhomogeneous, hts⟩

theorem toTag_compound_eq_ok (h : (compound entries).toTag = .ok t) :
    ∃ es, t = .compound (Table.ofEntries es) ∧
      List.Forall₂ (fun f d => d.1 = f.1 ∧ toTag f.2 = .ok d.2) entries es := by
  obtain ⟨es, hes, rfl⟩ := Snbt.map_eq_ok.1 h
  rw [toEntries_eq_mapM, Snbt.mapM_eq_ok] at hes
  exact ⟨es, rfl, hes.imp fun _ _ hentry => toEntry_eq_ok.1 hentry⟩

theorem toTag_list_eq_error (h : (list items).toTag = .error e) :
    (∃ u ∈ items, u.toTag = .error e) ∨ ∃ ts, List.Forall₂ (fun r u => toTag r = .ok u) items ts ∧
      homogeneous ts = .error e := by
  rw [toTag, toTags_eq_mapM] at h
  cases hts : items.mapM toTag with
  | error e' =>
    rw [hts] at h
    cases h
    exact .inl (Snbt.mapM_eq_error hts)
  | ok ts =>
    rw [hts] at h
    exact .inr ⟨ts, Snbt.mapM_eq_ok.1 hts, h⟩

theorem toTag_compound_eq_error (h : (compound entries).toTag = .error e) :
    ∃ f ∈ entries, f.2.toTag = .error e := by
  rw [toTag, toEntries_eq_mapM] at h
  cases hes : entries.mapM toEntry with
  | ok es =>
    rw [hes] at h
    cases h
  | error e' =>
    rw [hes] at h
    cases h
    obtain ⟨f, hf, hentry⟩ := Snbt.mapM_eq_error hes
    refine ⟨f, hf, ?_⟩
    rw [toEntry] at hentry
    cases hu : toTag f.2 with
    | ok u =>
      rw [hu] at hentry
      cases hentry
    | error e'' =>
      rw [hu] at hentry
      cases hentry
      rfl

theorem toTag_atom (hlist : r.kind ≠ .list) (hcompound : r.kind ≠ .compound) :
    ∃ t, r.toTag = .ok t ∧ t.toRaw = r ∧ t.WellFormed := by
  cases r with
  | list _ | compound _ => contradiction
  | byteArray _ | intArray _ | longArray _ =>
    exact ⟨_, rfl, rfl, Tag.throughout_of_elements trivial rfl fun _ => ⟨rfl, trivial⟩⟩
  | _ => exact ⟨_, rfl, rfl, Tag.throughout_of_childless rfl trivial⟩

theorem exists_of_mem_left {α β : Type} {R : α → β → Prop} {as : List α} {bs : List β}
    (h : List.Forall₂ R as bs) {a : α} (ha : a ∈ as) : ∃ b ∈ bs, R a b := by
  induction h with
  | nil => contradiction
  | cons hR _ ih =>
    rcases List.mem_cons.1 ha with rfl | ha
    · exact ⟨_, List.mem_cons_self, hR⟩
    · obtain ⟨b, hb, hR⟩ := ih ha
      exact ⟨b, List.mem_cons_of_mem _ hb, hR⟩

theorem forall₂_imp_of_mem {α β : Type} {R S : α → β → Prop} {as : List α} {bs : List β}
    (h : List.Forall₂ R as bs) (himp : ∀ a ∈ as, ∀ b, R a b → S a b) : List.Forall₂ S as bs := by
  induction h with
  | nil => exact .nil
  | cons hR _ ih =>
    exact .cons (himp _ List.mem_cons_self _ hR) (ih fun a ha => himp a (List.mem_cons_of_mem _ ha))

theorem kind_of_toTag (h : r.toTag = .ok t) : r.kind = t.kind := by
  cases r with
  | list items =>
    obtain ⟨element, ts, rfl, -⟩ := toTag_list_eq_ok h
    rfl
  | compound entries =>
    obtain ⟨es, rfl, -⟩ := toTag_compound_eq_ok h
    rfl
  | _ => cases h; rfl

theorem kinds_of_toTags (h : List.Forall₂ (fun r u => toTag r = .ok u) items ts) :
    items.map kind = ts.map Tag.kind := by
  induction h with
  | nil => rfl
  | cons hu _ ih => rw [List.map_cons, List.map_cons, ih, kind_of_toTag hu]

/-! ## What is accepted -/

theorem oneKind_of_kinds {element : Option Kind} (hkinds : items.map kind = ts.map Tag.kind)
    (h : TypedList.Homogeneous ⟨element, ts⟩) : OneKind items := by
  have hkind : ∀ a ∈ items, some a.kind = element := fun a ha => by
    obtain ⟨u, hu, heq⟩ : ∃ u ∈ ts, u.kind = a.kind :=
      List.mem_map.1 (hkinds ▸ List.mem_map_of_mem ha)
    rw [← heq]
    exact h.1 u hu
  exact fun a ha b hb => Option.some.inj ((hkind a ha).trans (hkind b hb).symm)

/-- What is inside an accepted value is accepted too. -/
theorem Occurs.accepted (hoccurs : Occurs u r) (h : r.toTag = .ok t) : ∃ v, u.toTag = .ok v := by
  induction hoccurs generalizing t with
  | here => exact ⟨t, h⟩
  | item hmem _ ih =>
    obtain ⟨_, ts, -, -, hts⟩ := toTag_list_eq_ok h
    obtain ⟨v, -, hv⟩ := exists_of_mem_left hts hmem
    exact ih hv
  | entry hmem _ ih =>
    obtain ⟨es, -, hes⟩ := toTag_compound_eq_ok h
    obtain ⟨d, -, -, hd⟩ := exists_of_mem_left hes hmem
    exact ih hd

theorem oneKind_of_toTag (hoccurs : Occurs (.list items) r) (h : r.toTag = .ok t) :
    OneKind items := by
  obtain ⟨v, hv⟩ := hoccurs.accepted h
  obtain ⟨element, ts, -, hhomogeneous, hts⟩ := toTag_list_eq_ok hv
  exact oneKind_of_kinds (kinds_of_toTags hts) hhomogeneous

/-- Some list in a raw value that is refused has elements of the two kinds. -/
theorem firstMix_of_toTag (h : r.toTag = .error e) :
    ∃ items, Occurs (.list items) r ∧ FirstMix (items.map kind) e := by
  induction r using byParts with
  | atom r hlist hcompound =>
    obtain ⟨t, ht, -⟩ := toTag_atom hlist hcompound
    rw [ht] at h
    contradiction
  | list items ih =>
    rcases toTag_list_eq_error h with ⟨u, hu, herror⟩ | ⟨ts, hts, herror⟩
    · obtain ⟨inner, hoccurs, hmix⟩ := ih u hu herror
      exact ⟨inner, .item hu hoccurs, hmix⟩
    · exact ⟨items, .here, kinds_of_toTags hts ▸ homogeneous_eq_error herror⟩
  | compound entries ih =>
    obtain ⟨f, hf, herror⟩ := toTag_compound_eq_error h
    obtain ⟨inner, hoccurs, hmix⟩ := ih f hf herror
    exact ⟨inner, .entry hf hoccurs, hmix⟩

theorem toTag_eq_ok_iff (r : Raw) :
    (∃ t, r.toTag = .ok t) ↔ ∀ items, Occurs (.list items) r → OneKind items := by
  constructor
  · rintro ⟨t, ht⟩ items hoccurs
    exact oneKind_of_toTag hoccurs ht
  · intro hall
    cases h : r.toTag with
    | ok t => exact ⟨t, rfl⟩
    | error e =>
      obtain ⟨items, hoccurs, hmix⟩ := firstMix_of_toTag h
      exact absurd (hall items hoccurs) hmix.not_oneKind

/-! ## What is made of it -/

theorem wellFormed_of_toTag (h : r.toTag = .ok t) : t.WellFormed := by
  induction r using byParts generalizing t with
  | atom r hlist hcompound =>
    obtain ⟨u, hu, -, hwell⟩ := toTag_atom hlist hcompound
    rw [hu] at h
    cases h
    exact hwell
  | list items ih =>
    obtain ⟨element, ts, rfl, hhomogeneous, hts⟩ := toTag_list_eq_ok h
    refine Tag.throughout_list hhomogeneous fun u hu => ?_
    obtain ⟨r, hr, hread⟩ := exists_of_mem_left hts.flip hu
    exact ih r hr hread
  | compound entries ih =>
    obtain ⟨es, rfl, hes⟩ := toTag_compound_eq_ok h
    refine Tag.throughout_compound (Table.sorted_ofEntries es) fun d hd => ?_
    obtain ⟨f, hf, -, hread⟩ := exists_of_mem_left hes.flip (Table.mem_of_mem_ofEntries hd)
    exact ih f hf hread

theorem Keyed.item (h : (list items).Keyed) (hu : u ∈ items) : u.Keyed :=
  fun entries hoccurs => h entries (.item hu hoccurs)

theorem Keyed.entry {f : String × Raw} (h : (compound entries).Keyed) (hf : f ∈ entries) :
    f.2.Keyed :=
  fun inner hoccurs => h inner (.entry hf hoccurs)

/-- The tag written back differs from the raw value at most in the order of entries. -/
theorem same_of_toTag (hkeyed : r.Keyed) (h : r.toTag = .ok t) : Same r t.toRaw := by
  induction r using byParts generalizing t with
  | atom r hlist hcompound =>
    obtain ⟨u, hu, hback, -⟩ := toTag_atom hlist hcompound
    rw [hu] at h
    cases h
    rw [hback]
    exact .atom hlist hcompound
  | list items ih =>
    obtain ⟨element, ts, rfl, -, hts⟩ := toTag_list_eq_ok h
    rw [Tag.toRaw, Tag.toRaws_eq_map]
    refine .list (List.forall₂_map_right_iff.2 ?_)
    exact forall₂_imp_of_mem hts fun u hu v hv => ih u hu (hkeyed.item hu) hv
  | compound entries ih =>
    obtain ⟨es, rfl, hes⟩ := toTag_compound_eq_ok h
    have hkeys : es.map Prod.fst = entries.map Prod.fst :=
      Table.keys_eq (hes.flip.imp fun _ _ hentry => hentry.1)
    have hnodup : (es.map Prod.fst).Nodup := hkeys ▸ hkeyed entries .here
    rw [Tag.toRaw, Tag.toRawEntries_eq_map]
    refine @Same.compound entries (es.map Tag.toRawEntry) _ ?_ ?_
      ((Table.ofEntries_perm hnodup).symm.map Tag.toRawEntry)
    · rw [← hkeys, List.map_map]
      rfl
    · rw [List.map_map]
      refine List.forall₂_map_left_iff.2 (List.forall₂_map_right_iff.2 ?_)
      exact forall₂_imp_of_mem hes fun f hf d hd => ih f hf (hkeyed.entry hf) hd.2

/-! ## Lists taken in one by one -/

theorem takeAll_of_kind (k : Kind) (before ts : List Tag) :
    takeAll ⟨some k, before⟩ ts =
      match ts.find? fun u => u.kind != k with
      | some u => .error ⟨k, u.kind⟩
      | none => .ok (some ⟨some k, before ++ ts⟩) := by
  induction ts generalizing before with
  | nil => rw [List.append_nil]; rfl
  | cons u rest ih =>
    by_cases hkind : u.kind = k
    · have hpush : TypedList.push? ⟨some k, before⟩ u = some ⟨some k, before ++ [u]⟩ := by
        rw [← hkind]
        exact if_pos (.inr rfl)
      have hfilter : (some k).filter (fun k => k != u.kind) = none := by simp [hkind]
      rw [takeAll, hfilter, hpush, List.find?_cons_of_neg (by simp [hkind])]
      dsimp only
      rw [ih, List.append_assoc, List.singleton_append]
    · have hfilter : (some k).filter (fun k => k != u.kind) = some k := by simp [Ne.symm hkind]
      rw [takeAll, hfilter, List.find?_cons_of_pos (by simpa using hkind)]

/-- A list that is accepted takes its elements one by one, and one that is refused does not. -/
theorem takeAll_nil (ts : List Tag) :
    (takeAll .nil ts).map (Option.map TypedList.toTag) = (homogeneous ts).map some := by
  cases ts with
  | nil => rfl
  | cons t rest =>
    have hfirst : takeAll .nil (t :: rest) = takeAll ⟨some t.kind, [t]⟩ rest := rfl
    rw [hfirst, takeAll_of_kind, homogeneous, List.find?_cons_of_neg (by simp)]
    cases rest.find? fun u => u.kind != t.kind <;> rfl

/-! ## The check as a whole -/

structure Checked (r : Raw) : Prop where
  accepts : (∃ t, r.toTag = .ok t) ↔ ∀ items, Occurs (.list items) r → OneKind items
  wellFormed : ∀ t, r.toTag = .ok t → t.WellFormed
  returns : r.Keyed → ∀ t, r.toTag = .ok t → Same r t.toRaw
  /-- A refusal names the first kind of a list and the first one that differs from it. -/
  names : ∀ e, r.toTag = .error e →
    ∃ items, Occurs (.list items) r ∧ FirstMix (items.map kind) e

/-- Exactly the raw values without a list of several kinds are tags, and every well-formed tag
without an empty list of a declared kind is had from the raw value that it is written as. -/
theorem toTag_checked : (∀ r : Raw, Checked r) ∧
    (∀ ts : List Tag, (takeAll .nil ts).map (Option.map TypedList.toTag) =
      (homogeneous ts).map some) ∧
    ∀ t : Tag, t.WellFormed → t.Throughout Tag.EmptyUntyped → t.toRaw.toTag = .ok t :=
  ⟨fun r => {
    accepts := toTag_eq_ok_iff r
    wellFormed := fun _ => wellFormed_of_toTag
    returns := fun hkeyed _ => same_of_toTag hkeyed
    names := fun _ => firstMix_of_toTag },
  takeAll_nil, fun _ => Tag.toTag_toRaw_of_inOrder⟩

theorem toTag_checked_sample : NamedTag.sample.tag.WellFormed ∧
    NamedTag.sample.tag.Throughout Tag.EmptyUntyped ∧
    NamedTag.sample.tag.toRaw.toTag = .ok NamedTag.sample.tag := by
  obtain ⟨-, -, hfits, -⟩ := NamedTag.sample_storable
  have hordered : NamedTag.sample.tag.WellFormed := hfits.mono fun _ h => h.inOrder
  have hempty : NamedTag.sample.tag.Throughout Tag.EmptyUntyped :=
    hfits.mono fun _ h => h.emptyUntyped
  exact ⟨hordered, hempty, toTag_checked.2.2 _ hordered hempty⟩

end Raw

end BlockConvert
