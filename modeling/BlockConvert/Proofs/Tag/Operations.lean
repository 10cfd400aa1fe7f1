import BlockConvert.Proofs.Tag.Throughout

set_option autoImplicit false

/-!
# Lists stay of one kind

However a list was made and whatever was done to it, its elements have the kind that it declares.
Operations that would mix kinds, or write beyond the end, are refused, and change nothing. To retype
a list loses no place in it: the elements stay as they are, or become empty values if they were of
another kind.
-/

namespace BlockConvert

namespace TypedList

inductive Operation where
  | push (t : Tag)
  | set (index : Nat) (t : Tag)
  | coerce (k : Kind)
  | padTo (length : Nat) (k : Kind)

namespace Operation

/-- The list after the operation, if the operation is not refused. -/
def run? (l : TypedList) : Operation → Option TypedList
  | push t => l.push? t
  | set index t => l.set? index t
  | coerce k => some (l.coerce k)
  | padTo length k => some (l.padTo length k)

def apply (l : TypedList) (op : Operation) : TypedList := (op.run? l).getD l

/-- The tag fits the list, and the index is one of the list. -/
def Allowed (l : TypedList) : Operation → Prop
  | push t => l.items = [] ∨ l.element = some t.kind
  | set index t => l.element = some t.kind ∧ index < l.items.length
  | coerce _ => True
  | padTo _ _ => True

end Operation

inductive Obtained : TypedList → Prop
  | nil : Obtained nil
  | ofKind (k : Kind) : Obtained (ofKind k)
  | ofItems {items : List Tag} {l : TypedList} (h : ofItems? items = some l) : Obtained l
  | apply {l : TypedList} (h : Obtained l) (op : Operation) : Obtained (op.apply l)

/-- The second list has the kind. It holds the elements of the first one, or as many empty values
if that is of another kind, and more empty values behind them. -/
structure Retyped (k : Kind) (before after : TypedList) : Prop where
  element : after.element = some k
  length_le : before.items.length ≤ after.items.length
  kept : before.element = some k → ∀ i < before.items.length, after.items[i]? = before.items[i]?
  emptied : before.element ≠ some k → ∀ i < before.items.length,
    after.items[i]? = some (Tag.empty k)
  added : ∀ i t, before.items.length ≤ i → after.items[i]? = some t → t = Tag.empty k

variable {l after : TypedList} {items : List Tag} {t : Tag} {k : Kind}

/-! ## One operation -/

theorem Homogeneous.kind (h : l.Homogeneous) (ht : t ∈ l.items) : l.element = some t.kind :=
  (h.1 t ht).symm

theorem homogeneous_iff : l.Homogeneous ↔ ∀ t ∈ l.items, l.element = some t.kind :=
  ⟨fun h _ ht => h.kind ht, homogeneous_of_kinds⟩

theorem Homogeneous.push? (h : l.Homogeneous) (hpush : l.push? t = some after) :
    after.Homogeneous := by
  obtain ⟨hfits, hafter⟩ := Option.ite_none_right_eq_some.1 hpush
  cases hafter
  refine homogeneous_iff.2 fun u hu => ?_
  rcases List.mem_append.1 hu with hold | hnew
  · -- an element that was there shows that the list was not retyped
    have hkind := h.kind hold
    have hne : l.items.isEmpty = false := List.isEmpty_eq_false_iff.2 (List.ne_nil_of_mem hold)
    rw [← hkind]
    simpa [hne, eq_comm] using hfits
  · rw [List.mem_singleton.1 hnew]

theorem Homogeneous.set? {index : Nat} (h : l.Homogeneous) (hset : l.set? index t = some after) :
    after.Homogeneous := by
  obtain ⟨⟨hkind, -⟩, hafter⟩ := Option.ite_none_right_eq_some.1 hset
  cases hafter
  refine homogeneous_iff.2 fun u hu => ?_
  rcases List.mem_or_eq_of_mem_set hu with hold | rfl
  · exact h.kind hold
  · exact hkind

theorem Homogeneous.coerce (h : l.Homogeneous) (k : Kind) : (l.coerce k).Homogeneous := by
  unfold TypedList.coerce
  split
  · exact h
  · refine homogeneous_iff.2 fun u hu => ?_
    obtain ⟨-, -, rfl⟩ := List.mem_map.1 hu
    rw [Tag.kind_empty]

theorem Homogeneous.padTo (h : l.Homogeneous) (length : Nat) (k : Kind) :
    (l.padTo length k).Homogeneous := by
  refine homogeneous_iff.2 fun u hu => ?_
  rcases List.mem_append.1 hu with hold | hpad
  · exact (h.coerce k).kind hold
  · rw [List.eq_of_mem_replicate hpad, Tag.kind_empty, padTo_element]

theorem Homogeneous.apply (h : l.Homogeneous) (op : Operation) : (op.apply l).Homogeneous := by
  unfold Operation.apply
  cases hrun : op.run? l with
  | none => exact h
  | some after =>
    cases op with
    | push t => exact h.push? hrun
    | set index t => exact h.set? hrun
    | coerce k =>
      cases hrun
      exact h.coerce k
    | padTo length k =>
      cases hrun
      exact h.padTo length k

theorem run?_isSome_iff (l : TypedList) (op : Operation) : (op.run? l).isSome ↔ op.Allowed l := by
  cases op with
  | push t => simp [Operation.run?, Operation.Allowed, TypedList.push?]
  | set index t => simp [Operation.run?, Operation.Allowed, TypedList.set?]
  | coerce k => simp [Operation.run?, Operation.Allowed]
  | padTo length k => simp [Operation.run?, Operation.Allowed]

theorem apply_of_not_allowed {op : Operation} (h : ¬op.Allowed l) : op.apply l = l := by
  have hnone : op.run? l = none := by
    rwa [← run?_isSome_iff, Option.not_isSome_iff_eq_none] at h
  rw [Operation.apply, hnone, Option.getD_none]

/-! ## New lists -/

/-- A list made of elements declares the kind of the first one. -/
theorem ofItems?_eq_some_iff : ofItems? items = some l ↔
    l = ⟨items.head?.map Tag.kind, items⟩ ∧ l.Homogeneous := by
  cases items with
  | nil =>
    constructor
    · rintro ⟨⟩
      exact ⟨rfl, homogeneous_iff.2 (by simp [TypedList.nil])⟩
    · rintro ⟨rfl, -⟩
      rfl
  | cons t rest =>
    rw [ofItems?, Option.ite_none_right_eq_some, Option.some.injEq, List.all_eq_true]
    constructor
    · rintro ⟨hkinds, rfl⟩
      exact ⟨rfl, homogeneous_iff.2 fun u hu => congrArg some (beq_iff_eq.1 (hkinds u hu)).symm⟩
    · rintro ⟨rfl, hl⟩
      exact ⟨fun u hu => beq_iff_eq.2 (Option.some.inj (hl.kind hu)).symm, rfl⟩

theorem ofItems?_isSome_iff (items : List Tag) :
    (ofItems? items).isSome ↔ ∃ k, ∀ t ∈ items, t.kind = k := by
  rw [Option.isSome_iff_exists]
  constructor
  · rintro ⟨l, hl⟩
    obtain ⟨rfl, hkinds⟩ := ofItems?_eq_some_iff.1 hl
    cases items with
    | nil => exact ⟨.byte, by simp⟩
    | cons t rest => exact ⟨t.kind, fun u hu => (Option.some.inj (hkinds.kind hu)).symm⟩
  · rintro ⟨k, hk⟩
    refine ⟨_, ofItems?_eq_some_iff.2 ⟨rfl, homogeneous_iff.2 fun t ht => ?_⟩⟩
    cases items with
    | nil => contradiction
    | cons u rest =>
      show some u.kind = some t.kind
      rw [hk u (by simp), hk t ht]

theorem Obtained.homogeneous (h : Obtained l) : l.Homogeneous := by
  induction h with
  | nil => exact homogeneous_iff.2 (by simp [TypedList.nil])
  | ofKind k => exact homogeneous_iff.2 (by simp [TypedList.ofKind])
  | ofItems h => exact (ofItems?_eq_some_iff.1 h).2
  | apply _ op ih => exact ih.apply op

theorem Obtained.applyAll (h : Obtained l) (ops : List Operation) :
    Obtained (ops.foldl Operation.apply l) := by
  induction ops generalizing l with
  | nil => exact h
  | cons op rest ih => exact ih (h.apply op)

/-! ## Retyping -/

theorem retyped_coerce (l : TypedList) (k : Kind) : Retyped k l (l.coerce k) where
  element := coerce_element l k
  length_le := Nat.le_of_eq (coerce_length l k).symm
  kept h _ _ := by rw [TypedList.coerce, if_pos h]
  emptied h i hi := by simp [TypedList.coerce, h, hi]
  added i t hi ht := by
    rw [← coerce_length l k] at hi
    rw [List.getElem?_eq_none hi] at ht
    contradiction

theorem retyped_padTo (l : TypedList) (length : Nat) (k : Kind) :
    Retyped k l (l.padTo length k) := by
  have hcoerce := retyped_coerce l k
  have hlength := coerce_length l k
  have hold : ∀ i < l.items.length, (l.padTo length k).items[i]? = (l.coerce k).items[i]? :=
    fun i hi => List.getElem?_append_left (by omega)
  refine ⟨padTo_element l length k, ?_, fun h i hi => ?_, fun h i hi => ?_, fun i t hi ht => ?_⟩
  · rw [padTo_length]
    omega
  · rw [hold i hi, hcoerce.kept h i hi]
  · rw [hold i hi, hcoerce.emptied h i hi]
  · rw [TypedList.padTo, List.getElem?_append_right (by omega)] at ht
    exact List.eq_of_mem_replicate (List.mem_of_getElem? ht)

/-- The elements of a list have the kind that it declares. Refused is what does not fit the list,
and no more. A list is made of elements of one kind, and of no others. Retyping and padding keep all
places of a list. -/
theorem homogeneous_of_operations :
    (∀ l, Obtained l → l.Homogeneous) ∧
      (∀ (l : TypedList) (op : Operation),
        ((op.run? l).isSome ↔ op.Allowed l) ∧ (¬op.Allowed l → op.apply l = l)) ∧
      (∀ items, (ofItems? items).isSome ↔ ∃ k, ∀ t ∈ items, t.kind = k) ∧
      (∀ items l, ofItems? items = some l → l.items = items) ∧
      (∀ l k, Retyped k l (l.coerce k)) ∧
      ∀ (l : TypedList) (length : Nat) (k : Kind), Retyped k l (l.padTo length k) := by
  refine ⟨fun _ h => h.homogeneous, fun l op => ⟨run?_isSome_iff l op, apply_of_not_allowed⟩,
    ofItems?_isSome_iff, fun items l h => ?_, retyped_coerce, retyped_padTo⟩
  rw [(ofItems?_eq_some_iff.1 h).1]

/-- A list of one integer refuses a text. Padded with texts, it takes the text behind them. -/
theorem homogeneous_of_operations_retyped :
    let made := [.push (.int 4), .push (.string "four"), .padTo 3 .string, .push (.string "four"),
      .set 4 (.string "five")].foldl Operation.apply nil
    Obtained made ∧ made = ⟨some .string, [.string "", .string "", .string "", .string "four"]⟩ ∧
      made.Homogeneous := by
  have hmade := Obtained.nil.applyAll [.push (.int 4), .push (.string "four"), .padTo 3 .string,
    .push (.string "four"), .set 4 (.string "five")]
  exact ⟨hmade, by decide, homogeneous_of_operations.1 _ hmade⟩

end TypedList

end BlockConvert
