import BlockConvert.Proofs.Rule.OrderFree

set_option autoImplicit false

/-!
# Rules are read without regard to order

The reader of each part of a rule is free of order at the place of that part. What nests is read by
readers that are, and the readers for a greater depth are made of these, so by induction on the
depth all rules are. In the options of a rule that maps properties members do not move.
-/

namespace BlockConvert.Rule

open Json (Decoder Fields record? membersNamed)
open Json.Decoder
open Loader

variable {p q : Place} {j j' : Json} {items : List Json} {r : Readers} {nested : Bool}

/-! ## Data -/

theorem orderFree_kind (whole : Bool) : OrderFree p (kind whole) := orderFree_name whole _

theorem orderFree_path (whole : Bool) : OrderFree .data (path whole) :=
  OrderFree.list ((orderFree_pathKey.pair (orderFree_kind whole)).map _) fun _ _ => rfl

theorem orderFree_coords : OrderFree .data coords := orderFree_int32.triple.map _

theorem orderFree_tagSet : OrderFree .data tagSet := by
  intro j j' h
  have hlist : OrderFree .data (list tag) := orderFree_tag.list fun _ _ => rfl
  rw [tagSet, tagSet, hlist j j' h]

theorem orderFree_newTag : OrderFree .data newTag := by
  refine OrderFree.record (fun _ => rfl) rfl fun f f' h => ?_
  rw [h.withDefault "outer_name" "" orderFree_text,
    h.withDefault "outer_type" .compound (orderFree_kind false),
    h.optional "path" (orderFree_path false), h.required "key" orderFree_pathKey,
    h.required "value" orderFree_tag]

theorem orderFree_carry : OrderFree .data carry := by
  refine OrderFree.record (fun _ => rfl) rfl fun f f' h => ?_
  rw [h.withDefault "outer_name" "" orderFree_text,
    h.withDefault "outer_type" .compound (orderFree_kind true),
    h.optional "path" (orderFree_path true), h.optional "key" orderFree_pathKey,
    h.optional "type" (orderFree_kind true)]

theorem orderFree_scriptCall : OrderFree .data scriptCall := by
  have hinputs : OrderFree .data (list (Decoder.name true ScriptInput.ofName?)) :=
    (orderFree_name true _).list fun _ _ => rfl
  have houtputs : OrderFree .data (list (Decoder.name true ScriptOutput.ofName?)) :=
    (orderFree_name true _).list fun _ _ => rfl
  refine OrderFree.record (fun _ => rfl) rfl fun f f' h => ?_
  rw [h.required "function" orderFree_text, h.withDefault "input" [] hinputs,
    h.withDefault "output" [] houtputs]

/-! ## Parts, nodes and cases -/

theorem orderFree_part (hrules : OrderFree (.rules true) r.rules) : OrderFree .part (part r) := by
  refine OrderFree.record (fun _ => rfl) rfl fun f f' h => ?_
  rw [h.required "coords" orderFree_coords, h.required "functions" hrules]

theorem orderFree_node (hrules : OrderFree (.rules true) r.rules) (hnode : OrderFree .node r.node) :
    OrderFree .node (node r) := by
  have hnodes : OrderFree .nodes (dict r.node) := hnode.dict fun _ _ => rfl
  refine OrderFree.record (fun _ => rfl) rfl fun f f' h => ?_
  rw [h.optional "type" (orderFree_kind true), h.withDefault "functions" [] hrules,
    h.withDefault "keys" ∅ hnodes, h.withDefault "index" ∅ hnodes,
    h.optional "nested_default" hrules, h.optional "self_default" hrules]

theorem orderFree_mapTag (hrules : OrderFree (.rules true) r.rules) :
    OrderFree .mapTag (Loader.mapTag r) := by
  refine OrderFree.record (fun _ => rfl) rfl fun f f' h => ?_
  rw [h.optional "cases" hrules.tagTable, h.withDefault "default" [] hrules]

/-! ## One part or many -/

theorem exists_number_of_int32 {n : Int32} (h : int32 j = some n) : ∃ value, j = .number value := by
  cases j with
  | number value => exact ⟨value, rfl⟩
  | _ => cases h

theorem isLonePart_cons_of_coords {c : Coords} (h : coords j = some c) (rest : List Json) :
    Place.isLonePart (j :: rest) = true := by
  obtain ⟨_, htriple, _⟩ := Option.map_eq_some_iff.1 h
  unfold triple at htriple
  split at htriple
  · obtain ⟨_, hx, _⟩ := Option.bind_eq_some_iff.1 htriple
    obtain ⟨value, rfl⟩ := exists_number_of_int32 hx
    rfl
  · cases htriple

/-- A part alone is told by its coordinates. -/
theorem isLonePart_of_part {x : Part} (h : part r (.array items) = some x) :
    Place.isLonePart items = true := by
  obtain ⟨f, hf, h⟩ := Option.bind_eq_some_iff.1 h
  obtain ⟨offset, hoffset, _⟩ := Option.bind_eq_some_iff.1 h
  obtain ⟨c, hc, hcoords⟩ := Option.bind_eq_some_iff.1 hoffset
  rw [record?] at hf
  split at hf
  · cases hf
    cases items with
    | nil => cases hc
    | cons a rest =>
      cases hc
      exact isLonePart_cons_of_coords hcoords rest
  · cases hf

theorem part_eq_none (h : Place.isLonePart items = false) : part r (.array items) = none := by
  cases hpart : part r (.array items) with
  | none => rfl
  | some x => exact absurd (isLonePart_of_part hpart) (by rw [h]; nofun)

theorem list_part_eq_none (h : Place.isLonePart items = true) :
    list (part r) (.array items) = none := by
  unfold Place.isLonePart at h
  split at h
  · rename_i value rest more
    rw [list, List.mapM_cons, part_eq_none rfl]
    rfl
  · cases h

theorem isLonePart_cons (j : Json) (rest rest' : List Json) :
    Place.isLonePart (j :: rest) = Place.isLonePart (j :: rest') := by
  cases j with
  | array items =>
    match items with
    | [] => rfl
    | x :: _ => cases x <;> rfl
  | _ => rfl

theorem isLonePart_eq {pairs : List (Json × Json)}
    (h : ∀ i x, pairs[i]? = some x → Alike (q.item i) x.1 x.2) :
    Place.isLonePart (pairs.map Prod.fst) = Place.isLonePart (pairs.map Prod.snd) := by
  match pairs with
  | [] => rfl
  | (a, b) :: rest =>
    have hfirst : Alike (q.item 0) a b := h 0 (a, b) rfl
    refine hfirst.cases (fun _ _ => isLonePart_cons ..) (fun inner hinner => ?_) fun _ _ _ => rfl
    match inner with
    | [] => rfl
    | (x, y) :: more =>
      have hnumber : Alike _ x y := hinner 0 (x, y) rfl
      refine hnumber.cases (fun x _ => ?_) (fun _ _ => rfl) fun _ _ _ => rfl
      cases x <;> rfl

/-- The two shapes are told apart by what does not depend on order. -/
theorem orderFree_parts (hrules : OrderFree (.rules true) r.rules) :
    OrderFree .oneOrMany (oneOrMany (part r)) := by
  have hpart := orderFree_part hrules
  have hparts : OrderFree .parts (list (part r)) := hpart.list fun _ _ => rfl
  intro j j' h
  refine h.cases (fun _ _ => rfl) (fun pairs hpairs => ?_) fun fs others hmembers => ?_
  · have hsame := isLonePart_eq hpairs
    rw [oneOrMany, oneOrMany]
    cases hlone : Place.isLonePart (pairs.map Prod.fst) with
    | true =>
      have hresolve : Place.oneOrMany.resolve (.array (pairs.map Prod.fst)) = .part := if_pos hlone
      rw [hresolve] at hpairs
      rw [list_part_eq_none hlone, list_part_eq_none (hsame ▸ hlone),
        hpart _ _ (alike_array hpairs)]
    | false =>
      have hresolve : Place.oneOrMany.resolve (.array (pairs.map Prod.fst)) = .parts := by
        simp [Place.resolve, hlone]
      rw [hresolve] at hpairs
      rw [part_eq_none hlone, part_eq_none (hsame ▸ hlone),
        hparts _ _ (alike_array hpairs)]
  · have hone : MembersAlike .part fs others :=
      { hmembers with
        kept := fun h => absurd h (by decide)
        tags := fun h => absurd h (by decide)
        alike := hmembers.alike }
    rw [oneOrMany, oneOrMany, hpart _ _ hone.objects]
    rfl

/-! ## Rules by their names -/

theorem orderFree_withOptions {α : Type} {name : String} {options : Decoder α} {make : α → Rule}
    (h : OrderFree (.options name) options) :
    OrderFree (.fields name) (withOptions options make) := by
  refine OrderFree.record (fun _ => rfl) rfl fun f f' hfields => ?_
  rw [hfields.required "options" h]

theorem orderFree_walk (hnode : OrderFree .node r.node) :
    OrderFree (.fields "walk_input_nbt") (Loader.walk r) := by
  refine OrderFree.record (fun _ => rfl) rfl fun f f' h => ?_
  rw [h.required "options" hnode, h.optional "path" (orderFree_path true)]

theorem orderFree_carryTag : OrderFree (.fields "carry_nbt") Loader.carryTag := by
  refine OrderFree.record (fun _ => rfl) rfl fun f f' h => ?_
  rw [h.withDefault "options" Carry.same orderFree_carry]

theorem orderFree_named (hrules : OrderFree (.rules true) r.rules) (hnode : OrderFree .node r.node)
    (name : String) : OrderFree (.fields name) (named r name) := by
  unfold named
  split
  case h_1 => exact orderFree_withOptions orderFree_text
  case h_2 => exact orderFree_withOptions orderFree_text
  case h_3 => exact orderFree_withOptions (orderFree_tag.dict fun _ _ => rfl)
  case h_4 => exact orderFree_withOptions (orderFree_tagSet.dict fun _ _ => rfl)
  case h_5 => exact orderFree_withOptions hrules.tagTable.members
  case h_6 => exact orderFree_withOptions (hrules.dict fun _ _ => rfl)
  case h_7 => exact orderFree_withOptions (orderFree_parts hrules)
  case h_8 => exact orderFree_walk hnode
  case h_9 => exact orderFree_withOptions orderFree_newTag.oneOrMany
  case h_10 => exact orderFree_carryTag
  case h_11 =>
    refine OrderFree.record (fun _ => rfl) rfl fun f f' h => ?_
    rw [h.required "options" (orderFree_mapTag hrules)]
  case h_12 => exact orderFree_withOptions orderFree_scriptCall
  case h_13 => exact fun _ _ _ => rfl

/-! ## Rules -/

inductive Beside : Place → Place → Prop
  | named (name : String) : Beside (.named name) (.fields name)
  | data : Beside .data .data

namespace Beside

theorem resolve_eq (h : Beside p q) (j : Json) : p.resolve j = p := by
  cases h <;> rfl

theorem resolve_rest_eq (h : Beside p q) (j : Json) : q.resolve j = q := by
  cases h <;> rfl

theorem function_eq (h : Beside p q) : p.member (some "function") = .data := by
  cases h <;> rfl

theorem first_eq (h : Beside p q) : p.item 0 = .data := by
  cases h <;> rfl

theorem item_succ_eq (h : Beside p q) (i : Nat) : p.item (i + 1) = q.item i := by
  cases h <;> cases i <;> rfl

theorem member_eq (h : Beside p q) (key : Option String) : p.member key = q.member key := by
  cases h with
  | data => rfl
  | named name =>
    unfold Place.member
    split <;> simp_all

end Beside

theorem splitRule_object {ms : List (Option String × Json)} (h : (ms.filterMap Prod.fst).Nodup) :
    splitRule? (.object ms) = (membersNamed "function" ms).head?.map fun function =>
      (function, .object (ms.filter fun m => m.1 != some "function")) := by
  have hlength := length_membersNamed_le h "function"
  rw [splitRule?]
  match hfound : membersNamed "function" ms with
  | [] => rfl
  | [_] => rfl
  | _ :: _ :: _ => simp [hfound] at hlength

theorem Beside.members_alike {fs : List Member} {others : List (Option String × Json)}
    (h : Beside p q) (hmembers : MembersAlike p fs others) :
    MembersAlike q (fs.filter fun f => f.key != some "function")
      (others.filter fun m => m.1 != some "function") where
  moved := by
    have hmoved := hmembers.moved.filter fun m => m.1 != some "function"
    rwa [List.filter_map] at hmoved
  kept := by cases h <;> nofun
  keys := hmembers.keys.sublist (List.filter_sublist.filterMap _)
  tags := by cases h <;> nofun
  alike := by
    intro f hf
    rw [h.resolve_rest_eq, ← h.member_eq, ← h.resolve_eq (.object (fs.map Member.old))]
    exact hmembers.alike f (List.mem_of_mem_filter hf)

theorem Beside.splitRule_rel (h : Beside p q) (hj : Alike p j j') :
    Option.Rel (fun x x' => Alike .data x.1 x'.1 ∧ Alike q x.2 x'.2) (splitRule? j)
      (splitRule? j') := by
  refine hj.cases (fun j hatom => ?_) (fun pairs hpairs => ?_) fun fs others hmembers => ?_
  · cases j with
    | array _ => exact absurd hatom (depth_array_ne _)
    | object _ => exact absurd hatom (depth_object_ne _)
    | _ => exact .none
  · match pairs with
    | [] => exact .none
    | (a, b) :: rest =>
      rw [h.resolve_eq] at hpairs
      refine .some ⟨h.first_eq ▸ hpairs 0 (a, b) rfl, alike_array fun i x hx => ?_⟩
      rw [h.resolve_rest_eq, ← h.item_succ_eq]
      exact hpairs (i + 1) x hx
  · rw [splitRule_object hmembers.keys_old, splitRule_object hmembers.keys_others]
    have hfunction := hmembers.field_rel "function"
    rw [h.resolve_eq, h.function_eq] at hfunction
    have hrest := (h.members_alike hmembers).objects
    generalize (membersNamed "function" (fs.map Member.old)).head? = function,
      (membersNamed "function" others).head? = function' at hfunction ⊢
    cases hfunction with
    | none => exact .none
    | some hname => exact .some ⟨hname, by rw [List.filter_map]; exact hrest⟩

theorem orderFree_ruleName (nested : Bool) : OrderFree p (ruleName nested) :=
  orderFree_of_atoms (fun _ => rfl) fun _ => rfl

theorem rule_eq (r : Readers) (nested : Bool) (j : Json) :
    rule r nested j = (splitRule? j).bind fun x =>
      (ruleName nested x.1).bind fun name => named r name x.2 :=
  rfl

theorem rule_eq_of_alike (hbeside : Beside p q) (h : Alike p j j')
    (hnamed : ∀ name, nameOf? nested j = some name → OrderFree q (named r name)) :
    rule r nested j = rule r nested j' := by
  have hrel := hbeside.splitRule_rel h
  rw [nameOf?] at hnamed
  rw [rule_eq, rule_eq]
  generalize splitRule? j = split, splitRule? j' = split' at hrel hnamed ⊢
  cases hrel with
  | none => rfl
  | @some x x' hx =>
    rw [Option.bind_some, Option.bind_some, ← orderFree_ruleName nested _ _ hx.1]
    cases hname : ruleName nested x.1 with
    | none => rfl
    | some name => exact hnamed name hname _ _ hx.2

theorem orderFree_rule (hnamed : ∀ name, OrderFree (.fields name) (named r name)) :
    OrderFree (.rule nested) (rule r nested) := by
  intro j j' h
  cases hname : nameOf? nested j with
  | none =>
    have hdata : Alike .data j j' := h.resolved (by rw [Place.resolve, hname]; rfl) nofun nofun
    exact rule_eq_of_alike .data hdata fun name hsome => nomatch hname.symm.trans hsome
  | some name =>
    have hrule : Alike (.named name) j j' :=
      h.resolved (by rw [Place.resolve, hname]; rfl) nofun nofun
    refine rule_eq_of_alike (.named name) hrule fun other hsome => ?_
    cases hname.symm.trans hsome
    exact hnamed name

/-- By induction on the depth to which rules nest: what is inside is read by readers for less. -/
theorem orderFree_readers (bound : Nat) :
    OrderFree (.rules true) (readers bound).rules ∧ OrderFree .node (readers bound).node := by
  induction bound with
  | zero => exact ⟨fun _ _ _ => rfl, fun _ _ _ => rfl⟩
  | succ bound ih =>
    obtain ⟨hrules, hnode⟩ := ih
    have hrule : OrderFree (.rule true) (rule (readers bound) true) :=
      orderFree_rule (orderFree_named hrules hnode)
    exact ⟨hrule.list fun _ _ => rfl, orderFree_node hrules hnode⟩

theorem orderFree_ruleList (enclosing : Nat) :
    OrderFree (.rules false) (ruleList enclosing) := by
  obtain ⟨hrules, hnode⟩ := orderFree_readers Json.depthLimit
  have hrule : OrderFree (.rule false) (rule (readers Json.depthLimit) false) :=
    orderFree_rule (orderFree_named hrules hnode)
  refine OrderFree.list (q := .rule false) (fun j j' h => ?_) fun _ _ => rfl
  rw [h.reordered.isWhole_eq, hrule j j' h]

/-! ## Cases of properties -/

def optionsOf? (j : Json) : Option Json :=
  (splitRule? j).bind fun x => (record? ["options"] x.2).bind fun fields => fields "options"

theorem rule_mapProperties (hname : nameOf? nested j = some "map_properties") :
    rule r nested j =
      ((optionsOf? j).bind (members (tagTable r.rules))).map Rule.mapProperties := by
  obtain ⟨x, hsplit, hx⟩ := Option.bind_eq_some_iff.1 hname
  have hx' : ruleName nested x.1 = some "map_properties" := hx
  rw [rule_eq, optionsOf?, hsplit, Option.bind_some, Option.bind_some, hx', Option.bind_some,
    Option.bind_assoc, Option.map_bind]
  rfl

/-- The rules that a document stands for do not depend on the order in which objects have their
members, except that the cases of properties are those of the document in its order. -/
theorem loading_order :
    (∀ j j', Reordered (.rules false) j j' → Unrepeated (.rules false) j →
      (∀ enclosing, ruleList enclosing j = ruleList enclosing j') ∧
      ∀ text text', Json.parse? text = some j → Json.parse? text' = some j' →
        parse? text = parse? text') ∧
    ∀ r nested j, nameOf? nested j = some "map_properties" → ∀ parsed,
      rule r nested j = some parsed ↔ ∃ ms cases, optionsOf? j = some (.object ms) ∧
        parsed = .mapProperties cases ∧
        List.Forall₂ (fun m c => m.1 = some c.1 ∧ tagTable r.rules m.2 = some c.2) ms cases := by
  refine ⟨fun j j' hreordered hunrepeated => ?_, fun r nested j hname parsed => ?_⟩
  · have h : Alike (.rules false) j j' := ⟨hreordered, hunrepeated⟩
    refine ⟨fun enclosing => orderFree_ruleList enclosing j j' h,
      fun text text' htext htext' => ?_⟩
    rw [parse?, parse?, htext, htext']
    exact orderFree_ruleList 0 j j' h
  · rw [rule_mapProperties hname, Option.map_eq_some_iff]
    simp only [Option.bind_eq_some_iff, members_eq_some]
    constructor
    · rintro ⟨cases, ⟨_, hoptions, ms, rfl, hcases⟩, rfl⟩
      exact ⟨ms, cases, hoptions, rfl, hcases⟩
    · rintro ⟨ms, cases, hoptions, rfl, hcases⟩
      exact ⟨cases, ⟨_, hoptions, ms, rfl, hcases⟩, rfl⟩

/-- A rule that maps a property by two tags, and a property without cases. -/
def mapped : String :=
  "[\x7b\"function\":\"map_properties\"," ++
    "\"options\":\x7b\"b\":\x7b\"1b\":[],\"0b\":[]\x7d,\"a\":\x7b\x7d\x7d\x7d]"

def remapped : String :=
  "[\x7b\"options\":\x7b\"b\":\x7b\"0b\":[],\"1b\":[]\x7d,\"a\":\x7b\x7d\x7d," ++
    "\"function\":\"map_properties\"\x7d]"

theorem remapped_alike : ∃ j j', Json.parse? mapped = some j ∧ Json.parse? remapped = some j' ∧
    Alike (.rules false) j j' := by
  have hnone (p : Place) : Alike p (.array []) (.array []) := by
    let pairs : List (Json × Json) := []
    change Alike p (.array (pairs.map Prod.fst)) (.array (pairs.map Prod.snd))
    exact alike_array nofun
  have hsingle {j j' : Json} (h : Alike (.rule false) j j') :
      Alike (.rules false) (.array [j]) (.array [j']) := by
    let pairs : List (Json × Json) := [(j, j')]
    change Alike (.rules false) (.array (pairs.map Prod.fst)) (.array (pairs.map Prod.snd))
    refine alike_array fun i x hx => ?_
    match i, hx with
    | 0, rfl => exact h
  have htags : MembersAlike .tagCases
      [⟨some "1b", .array [], .array []⟩, ⟨some "0b", .array [], .array []⟩]
      [(some "0b", .array []), (some "1b", .array [])] :=
    { moved := .swap _ _ _, kept := nofun, keys := by decide, tags := fun _ => by decide +kernel,
      alike := by simp [hnone] }
  have hempty : MembersAlike .tagCases [] [] :=
    { moved := .nil, kept := nofun, keys := .nil, tags := fun _ => .nil, alike := nofun }
  have hproperties : MembersAlike .propertyCases
      [⟨some "b", _, _⟩, ⟨some "a", _, _⟩] [(some "b", _), (some "a", _)] :=
    { moved := .refl _, kept := fun _ => rfl, keys := by decide, tags := nofun,
      alike := List.forall_mem_cons.2 ⟨htags.objects, List.forall_mem_singleton.2 hempty.objects⟩ }
  have hname : Alike .data (.text (some "map_properties")) (.text (some "map_properties")) :=
    ⟨.atom rfl, .atom rfl⟩
  have hnamed : MembersAlike (.named "map_properties")
      [⟨some "function", _, _⟩, ⟨some "options", _, _⟩]
      [(some "options", _), (some "function", _)] :=
    { moved := .swap _ _ _, kept := nofun, keys := by decide, tags := nofun,
      alike := List.forall_mem_cons.2 ⟨hname, List.forall_mem_singleton.2 hproperties.objects⟩ }
  have hrule : Alike (.rule false) _ _ := hnamed.objects.resolved rfl nofun nofun
  exact ⟨_, _, rfl, rfl, hsingle hrule⟩

theorem loading_order_of_remapped :
    ((∃ j j', Reordered (.rules false) j j' ∧ Unrepeated (.rules false) j ∧
      Json.parse? mapped = some j ∧ Json.parse? remapped = some j') ∧
      parse? mapped = parse? remapped) ∧
    let j := Json.array [.text (some "map_properties"),
      .object [(some "b", .object []), (some "a", .object [])]]
    nameOf? false j = some "map_properties" ∧
      rule (readers 1) false j = some (.mapProperties [("b", []), ("a", [])]) := by
  obtain ⟨j, j', hj, hj', h⟩ := remapped_alike
  have hsame := (loading_order.1 j j' h.reordered h.unrepeated).2 mapped remapped hj hj'
  have hcases := loading_order.2 (readers 1) false (.array [.text (some "map_properties"),
    .object [(some "b", .object []), (some "a", .object [])]]) rfl
  refine ⟨⟨⟨j, j', h.reordered, h.unrepeated, hj, hj'⟩, hsame⟩, rfl, (hcases _).2 ?_⟩
  exact ⟨_, _, rfl, rfl, .cons ⟨rfl, rfl⟩ (.cons ⟨rfl, rfl⟩ .nil)⟩

end BlockConvert.Rule
