import BlockConvert.Catalog.BlockNumbers
import BlockConvert.Proofs.Table.Lookup
import Mathlib.Data.List.Induction
import Mathlib.Data.List.Nodup

set_option autoImplicit false

/-!
# Numbers of blocks and back

Names and numbers are bound to each other by the table of a version and while the program runs. If
no name and no number is bound twice, the block that stands for a number and data has that number
and that data again, provided that the name of the number is written with its space. A name without
a space is taken to lie in the default space, and under its full name no number is found.
-/

namespace BlockConvert

namespace NumericIds

section Rebind

variable {κ α : Type} [DecidableEq κ]

theorem lookup_filter_ne {key other : κ} (h : key ≠ other) (bindings : List (κ × α)) :
    (bindings.filter fun b => b.1 != key).lookup other = bindings.lookup other := by
  induction bindings with
  | nil => rfl
  | cons b rest ih =>
    obtain ⟨k, v⟩ := b
    by_cases hk : k = key
    · subst hk
      have hne : (other == k) = false := beq_eq_false_iff_ne.2 h.symm
      simp [List.lookup_cons, hne, ih]
    · rw [List.filter_cons_of_pos (by simpa using hk), List.lookup_cons, List.lookup_cons, ih]

theorem lookup_rebind (key : κ) (value : α) (bindings : List (κ × α)) (other : κ) :
    (rebind key value bindings).lookup other =
      if key = other then some value else bindings.lookup other := by
  rw [rebind, List.lookup_cons]
  split
  · rename_i hsame
    rw [if_pos (eq_of_beq hsame).symm]
  · rename_i hother
    have hne : key ≠ other := fun h => by simp [h] at hother
    rw [if_neg hne, lookup_filter_ne hne]

def bindAll (bindings : List (κ × α)) : List (κ × α) :=
  bindings.foldl (fun bound b => rebind b.1 b.2 bound) []

theorem lookup_bindAll {bindings : List (κ × α)} (h : (bindings.map Prod.fst).Nodup) {key : κ}
    {value : α} : (bindAll bindings).lookup key = some value ↔ (key, value) ∈ bindings := by
  induction bindings using List.reverseRecOn with
  | nil => simp [bindAll]
  | append_singleton rest b ih =>
    obtain ⟨k, v⟩ := b
    rw [List.map_append, List.nodup_append] at h
    obtain ⟨hrest, -, hfresh⟩ := h
    have hlast : bindAll (rest ++ [(k, v)]) = rebind k v (bindAll rest) := by
      simp [bindAll]
    rw [hlast, lookup_rebind, List.mem_append, List.mem_singleton]
    split
    · rename_i hkey
      subst hkey
      have hnot : (k, value) ∉ rest := fun hmem =>
        hfresh k (List.mem_map_of_mem hmem) k (by simp) rfl
      simp [hnot, eq_comm]
    · rename_i hkey
      rw [ih hrest]
      simp [Ne.symm hkey]

end Rebind

def ofBindings (bindings : List (String × Int32)) : NumericIds :=
  bindings.foldl (fun r b => r.register b.1 b.2) .empty

variable {bindings : List (String × Int32)} {name : String} {number : Int32}

theorem ofBindings_eq (bindings : List (String × Int32)) :
    ofBindings bindings = ⟨bindAll (bindings.map Prod.swap), bindAll bindings⟩ := by
  induction bindings using List.reverseRecOn with
  | nil => rfl
  | append_singleton rest b ih =>
    have hlast : ofBindings (rest ++ [b]) = (ofBindings rest).register b.1 b.2 := by
      simp [ofBindings]
    rw [hlast, ih]
    simp [register, bindAll]

theorem number?_ofBindings (h : (bindings.map Prod.fst).Nodup) :
    (ofBindings bindings).number? name = some number ↔ (name, number) ∈ bindings := by
  rw [ofBindings_eq, number?, lookup_bindAll h]

theorem name?_ofBindings (h : (bindings.map Prod.snd).Nodup) :
    (ofBindings bindings).name? number = some name ↔ (name, number) ∈ bindings := by
  have hswap : ((bindings.map Prod.swap).map Prod.fst).Nodup := by
    simpa [Function.comp_def] using h
  rw [ofBindings_eq, name?, lookup_bindAll hswap, List.mem_map]
  constructor
  · rintro ⟨⟨_, _⟩, hmem, heq⟩
    cases heq
    exact hmem
  · exact fun hmem => ⟨(name, number), hmem, rfl⟩

end NumericIds

namespace VersionData

/-- A name with its space, which is the default one if it is left out. -/
def fullName (name : String) : String := (RecordId.ofName name).text

/-- No number and no name is bound twice, and the name for numbers without a name is not bound. -/
structure OneToOne (bindings : List (String × Int32)) : Prop where
  names : (bindings.map fun b => fullName b.1).Nodup
  numbers : (bindings.map Prod.snd).Nodup
  unnamed : ∀ b ∈ bindings, fullName b.1 ≠ unnamedId.text

variable {v : VersionData} {bindings : List (String × Int32)} {name other : String}
  {number data : Int32}

theorem fullName_of_colon (h : ':' ∈ name.toList) : fullName name = name := RecordId.text_ofName h

theorem OneToOne.eq_of_number (h : OneToOne bindings) (hname : (name, number) ∈ bindings)
    (hother : (other, number) ∈ bindings) : name = other :=
  congrArg Prod.fst (List.inj_on_of_nodup_map h.numbers hname hother rfl)

theorem OneToOne.keys (h : OneToOne bindings) : (bindings.map Prod.fst).Nodup :=
  List.Nodup.of_map fullName (by rw [List.map_map]; exact h.names)

theorem numberOf?_int (data : Int32) : numberOf? (.int data) = some data := by
  have hrange : Decimal.isSigned 32 data.toInt64.toInt = true := by
    rw [Int32.toInt_toInt64, Decimal.isSigned, decide_eq_true_eq]
    exact ⟨data.le_toInt, Int.le_sub_one_of_lt data.toInt_lt⟩
  rw [numberOf?, Tag.integer?, Option.filter_some, if_pos hrange, Option.map_some,
    Int32.toInt32_toInt64]
  nofun

theorem nameOfNumber?_eq_some (h : (v.blockNumbers.entries.map Prod.snd).Nodup) :
    v.nameOfNumber? number = some name ↔ (name, number) ∈ v.blockNumbers.entries := by
  have hfound {e : String × Int32}
      (hfind : (v.blockNumbers.entries.find? fun e => e.2 = number) = some e) :
      e ∈ v.blockNumbers.entries ∧ e.2 = number := by
    have hsecond := List.find?_some hfind
    exact ⟨List.mem_of_find?_eq_some hfind, of_decide_eq_true hsecond⟩
  constructor
  · intro hname
    obtain ⟨⟨k, n⟩, hfind, rfl⟩ := Option.map_eq_some_iff.1 hname
    obtain ⟨hmem, rfl⟩ := hfound hfind
    exact hmem
  · intro hmem
    cases hfind : v.blockNumbers.entries.find? fun e => e.2 = number with
    | none =>
      have hnone := List.find?_eq_none.1 hfind _ hmem
      simp at hnone
    | some e =>
      obtain ⟨hmem', hsecond⟩ := hfound hfind
      rw [nameOfNumber?, hfind, List.inj_on_of_nodup_map h hmem' hmem hsecond]
      rfl

theorem get?_blockNumbers : v.blockNumbers.get? name = some number ↔
    (name, number) ∈ v.blockNumbers.entries :=
  ⟨Table.mem_of_get?_eq_some, Dict.get?_of_mem⟩

theorem or_eq_some_iff_of_agree {α : Type} {a b : Option α} {P Q : α → Prop} {x : α}
    (ha : ∀ x, a = some x ↔ P x) (hb : ∀ x, b = some x ↔ Q x)
    (hagree : ∀ x y, P x → Q y → x = y) : a.or b = some x ↔ P x ∨ Q x := by
  rw [Option.or_eq_some_iff, ha, hb]
  constructor
  · exact fun h => h.imp_right And.right
  · rintro (hx | hx)
    · exact .inl hx
    · cases hy : a with
      | none => exact .inr ⟨rfl, hx⟩
      | some y =>
        have hPy := (ha y).1 hy
        rw [← hagree y x hPy hx]
        exact .inl hPy

section Bound

variable (h : OneToOne (bindings ++ v.blockNumbers.entries))

include h

theorem boundName_eq_some :
    ((NumericIds.ofBindings bindings).name? number <|> v.nameOfNumber? number) = some name ↔
      (name, number) ∈ bindings ++ v.blockNumbers.entries := by
  have hnumbers := h.numbers
  rw [List.map_append, List.nodup_append] at hnumbers
  rw [Option.orElse_eq_orElse, Option.orElse_eq_or, List.mem_append]
  refine or_eq_some_iff_of_agree (fun _ => NumericIds.name?_ofBindings hnumbers.1)
    (fun _ => nameOfNumber?_eq_some hnumbers.2.1) fun x y hx hy => ?_
  exact h.eq_of_number (List.mem_append_left _ hx) (List.mem_append_right _ hy)

theorem boundNumber_eq_some :
    ((NumericIds.ofBindings bindings).number? name).or (v.blockNumbers.get? name) = some number ↔
      (name, number) ∈ bindings ++ v.blockNumbers.entries := by
  have hkeys := h.keys
  have hsame (x y : Int32) (hx : (name, x) ∈ bindings)
      (hy : (name, y) ∈ v.blockNumbers.entries) : x = y :=
    congrArg Prod.snd (List.inj_on_of_nodup_map hkeys (List.mem_append_left _ hx)
      (List.mem_append_right _ hy) rfl)
  rw [List.map_append, List.nodup_append] at hkeys
  rw [List.mem_append]
  exact or_eq_some_iff_of_agree (fun _ => NumericIds.number?_ofBindings hkeys.1)
    (fun _ => get?_blockNumbers) hsame

theorem blockOfNumbers_of_bound (data : Int32)
    (hname : (name, number) ∈ bindings ++ v.blockNumbers.entries) :
    v.blockOfNumbers (.ofBindings bindings) number data =
      .new (RecordId.ofName name) (.ofList [(dataKey, .int data)]) := by
  rw [blockOfNumbers, (boundName_eq_some h).2 hname]

theorem numbersOfBlock?_of_bound (data : Int32)
    (hname : (name, number) ∈ bindings ++ v.blockNumbers.entries) :
    v.numbersOfBlock? (.ofBindings bindings)
        (.new (RecordId.ofName name) (.ofList [(dataKey, .int data)])) =
      (((NumericIds.ofBindings bindings).number? (fullName name)).or
        (v.blockNumbers.get? (fullName name))).map (·, data) := by
  have hunnamed : RecordId.ofName name ≠ unnamedId := fun heq =>
    h.unnamed _ hname (congrArg RecordId.text heq)
  have hdata : (Dict.ofList [(dataKey, Tag.int data)]).get? dataKey = some (.int data) := rfl
  simp only [numbersOfBlock?, Block.new, hdata, Option.bind_some, numberOf?_int, fullName]
  cases (NumericIds.ofBindings bindings).number? (RecordId.ofName name).text with
  | some n => rfl
  | none =>
    simp only [Option.bind_eq_bind, Option.bind_some, hunnamed, if_false]
    cases v.blockNumbers.get? (RecordId.ofName name).text <;> rfl

theorem numbersOfBlock?_of_unbound (data : Int32)
    (hname : ∀ name, (name, number) ∉ bindings ++ v.blockNumbers.entries) :
    v.numbersOfBlock? (.ofBindings bindings) (v.blockOfNumbers (.ofBindings bindings) number data) =
      some (number, data) := by
  have hnone : ((NumericIds.ofBindings bindings).name? number <|> v.nameOfNumber? number) = none :=
    Option.eq_none_iff_forall_ne_some.2 fun name hsome =>
      hname name ((boundName_eq_some h).1 hsome)
  have hids : (NumericIds.ofBindings bindings).number? unnamedId.text = none := by
    have hboth : ((NumericIds.ofBindings bindings).number? unnamedId.text).or
        (v.blockNumbers.get? unnamedId.text) = none :=
      Option.eq_none_iff_forall_ne_some.2 fun n hsome =>
        h.unnamed _ ((boundNumber_eq_some h).1 hsome)
          (fullName_of_colon (RecordId.colon_mem_text unnamedId))
    exact (Option.or_eq_none_iff.1 hboth).1
  have hget (key : String) : (Dict.ofList [(dataKey, Tag.int data), (idKey, .int number)]).get?
      key = if idKey = key then some (.int number)
        else if dataKey = key then some (.int data) else none := by
    exact (Table.get?_insert idKey _ _ key).trans (by rw [Table.get?_insert]; rfl)
  have hkeys : idKey ≠ dataKey := by decide
  simp only [blockOfNumbers, hnone, numbersOfBlock?, Block.new, hget, hkeys, if_true, if_false,
    Option.bind_some, numberOf?_int, hids]
  rfl

/-- The block that stands for a number and data has that number and data again, just when the name
that is bound to the number, if there is one, is written with its space. -/
theorem numbersOfBlock?_blockOfNumbers_iff (number data : Int32) :
    v.numbersOfBlock? (.ofBindings bindings)
        (v.blockOfNumbers (.ofBindings bindings) number data) = some (number, data) ↔
      ∀ name, (name, number) ∈ bindings ++ v.blockNumbers.entries → ':' ∈ name.toList := by
  by_cases hbound : ∃ name, (name, number) ∈ bindings ++ v.blockNumbers.entries
  · obtain ⟨name, hname⟩ := hbound
    rw [blockOfNumbers_of_bound h data hname, numbersOfBlock?_of_bound h data hname]
    have hback : (((NumericIds.ofBindings bindings).number? (fullName name)).or
        (v.blockNumbers.get? (fullName name))).map (·, data) = some (number, data) ↔
          (fullName name, number) ∈ bindings ++ v.blockNumbers.entries := by
      rw [← boundNumber_eq_some h]
      simp
    rw [hback]
    constructor
    · intro hfull other hother
      rw [h.eq_of_number hother hfull]
      exact RecordId.colon_mem_text _
    · intro hcolon
      rw [fullName_of_colon (hcolon name hname)]
      exact hname
  · have hnone : ∀ name, (name, number) ∉ bindings ++ v.blockNumbers.entries :=
      fun name hname => hbound ⟨name, hname⟩
    exact ⟨fun _ name hname => absurd hname (hnone name),
      fun _ => numbersOfBlock?_of_unbound h data hnone⟩

end Bound

def oreVersion : VersionData :=
  { VersionData.ofMeta ⟨"java", ⟨1, 12, 2⟩, 1343, .numerical⟩ with
    blockNumbers := .ofList [("minecraft:stone", 1), ("mod:ore", 2)] }

/-- Two names that are bound while the program runs, one of them without a space. -/
def gadgets : List (String × Int32) := [("modded:gizmo", 300), ("gadget", 301)]

theorem gadgets_oneToOne : OneToOne (gadgets ++ oreVersion.blockNumbers.entries) where
  names := by decide
  numbers := by decide
  unnamed := by decide

theorem numbersOfBlock?_blockOfNumbers_gizmo :
    OneToOne (gadgets ++ oreVersion.blockNumbers.entries) ∧
      oreVersion.numbersOfBlock? (.ofBindings gadgets)
        (oreVersion.blockOfNumbers (.ofBindings gadgets) 300 2) = some (300, 2) := by
  refine ⟨gadgets_oneToOne, (numbersOfBlock?_blockOfNumbers_iff gadgets_oneToOne 300 2).2 ?_⟩
  intro name hname
  have hgizmo : ("modded:gizmo", 300) ∈ gadgets ++ oreVersion.blockNumbers.entries := by decide
  rw [gadgets_oneToOne.eq_of_number hname hgizmo]
  decide

/-- A name without a space is read as one of the default space, under which it is not bound. -/
theorem numbersOfBlock?_blockOfNumbers_gadget :
    OneToOne (gadgets ++ oreVersion.blockNumbers.entries) ∧
      oreVersion.blockOfNumbers (.ofBindings gadgets) 301 2 =
        .new ⟨"minecraft", "gadget"⟩ (.ofList [("block_data", .int 2)]) ∧
      oreVersion.numbersOfBlock? (.ofBindings gadgets)
        (oreVersion.blockOfNumbers (.ofBindings gadgets) 301 2) ≠ some (301, 2) := by
  refine ⟨gadgets_oneToOne, by decide, by decide⟩

end VersionData

end BlockConvert
