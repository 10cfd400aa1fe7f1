import BlockConvert.Rule.Loader
import Mathlib.Data.List.Perm.Basic

set_option autoImplicit false

/-!
# Places in a document of rules

What the reader of rules takes a value in a document for depends on where it stands: a rule, the
options of a rule with a certain name, a node of a walk, or data in which no rule stands. Two
documents are the same up to the order of members if they differ only in the order in which objects
have their members, other than the options of a rule that maps properties.
-/

namespace BlockConvert.Rule

def nameOf? (nested : Bool) (j : Json) : Option String :=
  (Loader.splitRule? j).bind fun (function, _) => Loader.ruleName nested function

inductive Place where
  | data
  | rules (nested : Bool)
  | rule (nested : Bool)
  /-- A rule of that name. -/
  | named (name : String)
  /-- What a rule of that name has beside the name. -/
  | fields (name : String)
  /-- The options of a rule that maps properties: for each property cases by its value. -/
  | propertyCases
  | tagCases
  | nameCases
  | mapTag
  /-- A list of parts, or one part alone. -/
  | oneOrMany
  | parts
  | part
  | node
  | nodes
deriving DecidableEq

namespace Place

def options : (name : String) → Place
  | "map_properties" => propertyCases
  | "map_block_name" => nameCases
  | "multiblock" => oneOrMany
  | "walk_input_nbt" => node
  | "map_nbt" => mapTag
  | _ => data

/-- A part alone starts with its coordinates, which start with a number. -/
def isLonePart : List Json → Bool
  | .array (.number _ :: _) :: _ => true
  | _ => false

/-- The place as the shape of the value there tells. -/
def resolve : Place → Json → Place
  | rule nested, j => ((nameOf? nested j).map named).getD data
  | oneOrMany, .array items => if isLonePart items then part else parts
  | oneOrMany, _ => part
  | p, _ => p

def member : Place → Option String → Place
  | named name, some "options" => options name
  | fields name, some "options" => options name
  | propertyCases, _ => tagCases
  | tagCases, _ => rules true
  | nameCases, _ => rules true
  | mapTag, some "cases" => tagCases
  | mapTag, some "default" => rules true
  | part, some "functions" => rules true
  | node, some "functions" => rules true
  | node, some "keys" => nodes
  | node, some "index" => nodes
  | node, some "nested_default" => rules true
  | node, some "self_default" => rules true
  | nodes, _ => node
  | _, _ => data

/-- The place of an item of an array. An array may stand for an object, with what it has under the
known keys in their order, and for a rule, with the name in front. -/
def item : Place → Nat → Place
  | rules nested, _ => rule nested
  | named name, 1 => options name
  | fields name, 0 => options name
  | mapTag, 0 => tagCases
  | mapTag, 1 => rules true
  | parts, _ => part
  | part, 1 => rules true
  | node, 1 => rules true
  | node, 2 => nodes
  | node, 3 => nodes
  | node, 4 => rules true
  | node, 5 => rules true
  | _, _ => data

end Place

structure Member where
  key : Option String
  before : Json
  after : Json

namespace Member

def old (m : Member) : Option String × Json := (m.key, m.before)

def new (m : Member) : Option String × Json := (m.key, m.after)

end Member

/-- The documents differ only in the order of the members of objects, at any depth, and the options
of a rule that maps properties stand in the same order. -/
inductive Reordered : Place → Json → Json → Prop
  | atom {p : Place} {j : Json} (h : j.depth = 0) : Reordered p j j
  | array {p : Place} {pairs : List (Json × Json)}
      (h : ∀ i x, pairs[i]? = some x →
        Reordered ((p.resolve (.array (pairs.map Prod.fst))).item i) x.1 x.2) :
      Reordered p (.array (pairs.map Prod.fst)) (.array (pairs.map Prod.snd))
  | object {p : Place} {ms : List Member} {others : List (Option String × Json)}
      (h : ∀ m ∈ ms, Reordered ((p.resolve (.object (ms.map Member.old))).member m.key)
        m.before m.after)
      (horder : (ms.map Member.new).Perm others)
      (hkept : p = .propertyCases → ms.map Member.new = others) :
      Reordered p (.object (ms.map Member.old)) (.object others)

/-- No object repeats a key, and where keys are tags no two keys of an object are the same tag. -/
inductive Unrepeated : Place → Json → Prop
  | atom {p : Place} {j : Json} (h : j.depth = 0) : Unrepeated p j
  | array {p : Place} {items : List Json}
      (h : ∀ i x, items[i]? = some x → Unrepeated ((p.resolve (.array items)).item i) x) :
      Unrepeated p (.array items)
  | object {p : Place} {ms : List (Option String × Json)} (hkeys : (ms.filterMap Prod.fst).Nodup)
      (htags : p = .tagCases → (ms.filterMap fun m => m.1.bind fun key =>
        (Tag.ofSnbt key).toOption).Nodup)
      (h : ∀ m ∈ ms, Unrepeated ((p.resolve (.object ms)).member m.1) m.2) :
      Unrepeated p (.object ms)

structure Alike (p : Place) (j j' : Json) : Prop where
  reordered : Reordered p j j'
  unrepeated : Unrepeated p j

structure MembersAlike (p : Place) (fs : List Member) (others : List (Option String × Json)) :
    Prop where
  moved : (fs.map Member.new).Perm others
  kept : p = .propertyCases → fs.map Member.new = others
  keys : (fs.filterMap Member.key).Nodup
  tags : p = .tagCases →
    (fs.filterMap fun f => f.key.bind fun key => (Tag.ofSnbt key).toOption).Nodup
  alike : ∀ f ∈ fs, Alike ((p.resolve (.object (fs.map Member.old))).member f.key) f.before f.after

variable {p q : Place} {j j' : Json} {items : List Json} {ms : List (Option String × Json)}

/-! ## What related documents are -/

theorem depth_array_ne (items : List Json) : (Json.array items).depth ≠ 0 := by
  rw [Json.depth]
  exact Nat.succ_ne_zero _

theorem depth_object_ne (ms : List (Option String × Json)) : (Json.object ms).depth ≠ 0 := by
  rw [Json.depth]
  exact Nat.succ_ne_zero _

theorem Unrepeated.of_array (h : Unrepeated p (.array items)) :
    ∀ i x, items[i]? = some x → Unrepeated ((p.resolve (.array items)).item i) x := by
  generalize hj : Json.array items = j at h
  cases h with
  | atom hatom => exact absurd (hj ▸ hatom) (depth_array_ne _)
  | object _ _ _ => cases hj
  | array hitems =>
    cases hj
    exact hitems

theorem Unrepeated.of_object (h : Unrepeated p (.object ms)) :
    (ms.filterMap Prod.fst).Nodup ∧
    (p = .tagCases → (ms.filterMap fun m => m.1.bind fun key =>
      (Tag.ofSnbt key).toOption).Nodup) ∧
    ∀ m ∈ ms, Unrepeated ((p.resolve (.object ms)).member m.1) m.2 := by
  generalize hj : Json.object ms = j at h
  cases h with
  | atom hatom => exact absurd (hj ▸ hatom) (depth_object_ne _)
  | array _ => cases hj
  | object hkeys htags hmembers =>
    cases hj
    exact ⟨hkeys, htags, hmembers⟩

/-- Related documents are the same atom, arrays that are related item by item, or objects whose
members are related before they are put in another order. -/
@[elab_as_elim]
theorem Alike.cases {motive : Json → Json → Prop} (h : Alike p j j')
    (atom : ∀ j, j.depth = 0 → motive j j)
    (array : ∀ pairs : List (Json × Json), (∀ i x, pairs[i]? = some x →
      Alike ((p.resolve (.array (pairs.map Prod.fst))).item i) x.1 x.2) →
      motive (.array (pairs.map Prod.fst)) (.array (pairs.map Prod.snd)))
    (object : ∀ fs others, MembersAlike p fs others →
      motive (.object (fs.map Member.old)) (.object others)) : motive j j' := by
  obtain ⟨hreordered, hunrepeated⟩ := h
  cases hreordered with
  | atom hatom => exact atom _ hatom
  | array hpairs =>
    refine array _ fun i x hx => ⟨hpairs i x hx, hunrepeated.of_array i x.1 ?_⟩
    rw [List.getElem?_map, hx]
    rfl
  | @object _ fs others hmembers hmoved hkept =>
    obtain ⟨hkeys, htags, hinside⟩ := hunrepeated.of_object
    rw [List.filterMap_map] at hkeys htags
    exact object fs others ⟨hmoved, hkept, hkeys, htags, fun f hf =>
      ⟨hmembers f hf, hinside f.old (List.mem_map_of_mem hf)⟩⟩

theorem alike_array {pairs : List (Json × Json)} (h : ∀ i x, pairs[i]? = some x →
    Alike ((p.resolve (.array (pairs.map Prod.fst))).item i) x.1 x.2) :
    Alike p (.array (pairs.map Prod.fst)) (.array (pairs.map Prod.snd)) := by
  refine ⟨.array fun i x hx => (h i x hx).reordered, .array fun i a ha => ?_⟩
  rw [List.getElem?_map] at ha
  obtain ⟨x, hx, rfl⟩ := Option.map_eq_some_iff.1 ha
  exact (h i x hx).unrepeated

theorem MembersAlike.objects {fs : List Member} {others : List (Option String × Json)}
    (h : MembersAlike p fs others) : Alike p (.object (fs.map Member.old)) (.object others) := by
  refine ⟨.object (fun f hf => (h.alike f hf).reordered) h.moved h.kept, .object ?_ ?_ ?_⟩
  · rw [List.filterMap_map]
    exact h.keys
  · rw [List.filterMap_map]
    exact h.tags
  · intro m hm
    obtain ⟨f, hf, rfl⟩ := List.mem_map.1 hm
    exact (h.alike f hf).unrepeated

/-- Only what a place is resolved to counts, and whether members may move there. -/
theorem Alike.resolved (h : Alike p j j') (hplace : p.resolve j = q.resolve j)
    (hkept : q = .propertyCases → p = .propertyCases) (htags : q = .tagCases → p = .tagCases) :
    Alike q j j' := by
  obtain ⟨hreordered, hunrepeated⟩ := h
  constructor
  · cases hreordered with
    | atom hatom => exact .atom hatom
    | array hpairs => exact .array (hplace ▸ hpairs)
    | object hmembers hmoved hstay =>
      exact .object (hplace ▸ hmembers) hmoved fun hq => hstay (hkept hq)
  · cases hunrepeated with
    | atom hatom => exact .atom hatom
    | array hitems => exact .array (hplace ▸ hitems)
    | object hkeys hdistinct hmembers =>
      exact .object hkeys (fun hq => hdistinct (htags hq)) (hplace ▸ hmembers)

/-! ## Soundness and depth -/

theorem map_fst_eq_map_snd {α : Type} {value : Json → α} {pairs : List (Json × Json)}
    (h : ∀ (i : Nat) (x : Json × Json), pairs[i]? = some x → value x.1 = value x.2) :
    (pairs.map Prod.fst).map value = (pairs.map Prod.snd).map value := by
  rw [List.map_map, List.map_map]
  refine List.map_congr_left fun x hx => ?_
  obtain ⟨i, hi⟩ := List.mem_iff_getElem?.1 hx
  exact h i x hi

theorem map_old_perm {α : Type} (value : Option String × Json → α) {fs : List Member}
    (horder : (fs.map Member.new).Perm ms) (h : ∀ f ∈ fs, value f.old = value f.new) :
    ((fs.map Member.old).map value).Perm (ms.map value) := by
  have hvalues : (fs.map Member.old).map value = (fs.map Member.new).map value := by
    rw [List.map_map, List.map_map]
    exact List.map_congr_left h
  exact hvalues ▸ horder.map value

theorem Reordered.depth_eq (h : Reordered p j j') : j.depth = j'.depth := by
  induction h with
  | atom _ => rfl
  | array _ ih =>
    rw [Json.depth, Json.depth, Json.depthItems_eq, Json.depthItems_eq, map_fst_eq_map_snd ih]
  | object _ horder _ ih =>
    have hperm := map_old_perm (fun m => m.2.depth) horder ih
    rw [Json.depth, Json.depth, Json.depthMembers_eq, Json.depthMembers_eq, hperm.foldr_eq]

theorem Reordered.isSound_eq (h : Reordered p j j') : j.isSound = j'.isSound := by
  induction h with
  | atom _ => rfl
  | array _ ih =>
    rw [Json.isSound, Json.isSound, Json.soundItems_eq, Json.soundItems_eq,
      map_fst_eq_map_snd ih]
  | object _ horder _ ih =>
    have hperm := map_old_perm (fun m => m.1.isSome && m.2.isSound) horder
      fun f hf => congrArg (f.key.isSome && ·) (ih f hf)
    rw [Json.isSound, Json.isSound, Json.soundMembers_eq, Json.soundMembers_eq, hperm.all_eq]

theorem Reordered.isWhole_eq (h : Reordered p j j') (enclosing : Nat) :
    j.isWhole enclosing = j'.isWhole enclosing := by
  rw [Json.isWhole, Json.isWhole, h.depth_eq, h.isSound_eq]

end BlockConvert.Rule
