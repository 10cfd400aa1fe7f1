import BlockConvert.Proofs.Snbt.Grammar
import BlockConvert.Proofs.Tag.Throughout
import BlockConvert.Snbt.Parser

set_option autoImplicit false

/-!
# What lists and arrays are made of

A list is accepted if its elements share one kind, and declares that kind. An array is accepted if
each element is of the type that its mark announces.
-/

namespace BlockConvert.Snbt

variable {α β : Type} {t : Tag}

/-! ## Results that may be faults -/

theorem map_eq_ok {ε γ : Type} {a : Except ε α} {f : α → γ} {y : γ} :
    a.map f = .ok y ↔ ∃ x, a = .ok x ∧ f x = y := by
  cases a <;> simp [Except.map]

theorem bind_eq_ok {ε γ : Type} {a : Except ε α} {f : α → Except ε γ} {y : γ} :
    a >>= f = .ok y ↔ ∃ x, a = .ok x ∧ f x = .ok y := by
  cases a <;> simp [bind, Except.bind]

theorem mapM_eq_ok {ε γ : Type} {f : β → Except ε γ} {bs : List β} {cs : List γ} :
    bs.mapM f = .ok cs ↔ List.Forall₂ (fun b c => f b = .ok c) bs cs := by
  induction bs generalizing cs with
  | nil => cases cs <;> simp [pure, Except.pure]
  | cons b rest ih =>
    simp only [List.mapM_cons, bind_eq_ok, ih, pure, Except.pure, Except.ok.injEq,
      List.forall₂_cons_left_iff]
    constructor
    · rintro ⟨c, hc, cs, hcs, rfl⟩
      exact ⟨c, cs, hc, hcs, rfl⟩
    · rintro ⟨c, cs, hc, hcs, rfl⟩
      exact ⟨c, hc, cs, hcs, rfl⟩

theorem mapM_eq_error {ε γ : Type} {f : β → Except ε γ} {bs : List β} {e : ε}
    (h : bs.mapM f = .error e) : ∃ b ∈ bs, f b = .error e := by
  induction bs with
  | nil => simp [pure, Except.pure] at h
  | cons b rest ih =>
    rw [List.mapM_cons] at h
    cases hb : f b with
    | error e' =>
      rw [hb] at h
      cases h
      exact ⟨b, by simp, hb⟩
    | ok c =>
      cases hrest : rest.mapM f with
      | error e' =>
        rw [hb, hrest] at h
        cases h
        obtain ⟨b', hmem, hb'⟩ := ih hrest
        exact ⟨b', List.mem_cons_of_mem _ hmem, hb'⟩
      | ok cs =>
        rw [hb, hrest] at h
        cases h

theorem mapM_ok {ε γ : Type} (f : β → γ) (bs : List β) :
    (bs.mapM fun b => (Except.ok (f b) : Except ε γ)) = .ok (bs.map f) :=
  List.mapM_pure

/-! ## Elements -/

theorem listOf_of_homogeneous {element : Option Kind} {items : List Tag}
    (h : TypedList.Homogeneous ⟨element, items⟩) (hempty : items = [] → element = none) :
    listOf items = .ok (.list element items) := by
  cases items with
  | nil => rw [hempty rfl]; rfl
  | cons u rest =>
    obtain ⟨helement, hfind⟩ := h.find?_eq_none
    rw [listOf, hfind, helement]

theorem listOf_eq_ok {items : List Tag} (h : listOf items = .ok t) :
    ∃ element, t = .list element items ∧ TypedList.Homogeneous ⟨element, items⟩ ∧
      (items = [] → element = none) := by
  cases items with
  | nil =>
    cases h
    exact ⟨none, rfl, TypedList.homogeneous_of_kinds (by simp), fun _ => rfl⟩
  | cons u rest =>
    rw [listOf] at h
    split at h
    · contradiction
    · rename_i hfind
      cases h
      refine ⟨some u.kind, rfl, TypedList.homogeneous_of_kinds fun v hv => ?_, by simp⟩
      have hkind : v.kind = u.kind := by simpa using List.find?_eq_none.1 hfind v hv
      rw [hkind]

theorem elementsOf_eq_ok {array : Kind} {read? : Tag → Option α} {ts : List Tag} {vs : List α} :
    elementsOf array read? ts = .ok vs ↔ List.Forall₂ (fun t v => read? t = some v) ts vs := by
  induction ts generalizing vs with
  | nil => cases vs <;> simp [elementsOf]
  | cons t rest ih =>
    rw [elementsOf]
    cases hread : read? t with
    | none => cases vs <;> simp [hread]
    | some v =>
      cases hrest : elementsOf array read? rest with
      | error e =>
        cases vs with
        | nil => simp [Except.map]
        | cons w ws => simp [Except.map, ← ih, hrest]
      | ok more =>
        cases vs with
        | nil => simp [Except.map]
        | cons w ws => simp [Except.map, hread, ← ih, hrest]

theorem forall₂_map_iff {read? : Tag → Option α} {make : α → Tag}
    (h : ∀ t v, read? t = some v ↔ t = make v) {ts : List Tag} {vs : List α} :
    List.Forall₂ (fun t v => read? t = some v) ts vs ↔ ts = vs.map make := by
  simp only [h]
  constructor
  · intro hall
    induction hall with
    | nil => rfl
    | cons heq _ ih => rw [List.map_cons, ← ih, heq]
  · rintro rfl
    exact List.forall₂_map_left_iff.2 (List.forall₂_same.2 fun _ _ => rfl)

theorem longElement?_eq_some {v : Int64} : longElement? t = some v ↔ IsLongElement t v := by
  constructor
  · intro h
    cases t <;> cases h
    · exact .int _
    · exact .long _
  · intro h
    cases h <;> rfl

def markKind : Char → Kind
  | 'B' => .byteArray
  | 'I' => .intArray
  | _ => .longArray

theorem byteElement?_eq_some (v : Int8) : byteElement? t = some v ↔ t = .byte v := by
  cases t <;> simp [byteElement?]

theorem intElement?_eq_some (v : Int32) : intElement? t = some v ↔ t = .int v := by
  cases t <;> simp [intElement?]

theorem MakesArray.mark_mem {mark : Char} {ts : List Tag} (h : MakesArray mark ts t) :
    mark ∈ ['B', 'I', 'L'] := by
  cases h <;> decide

theorem arrayMark?_mark {mark : Char} (hmark : mark ∈ ['B', 'I', 'L']) (cs : List Char) :
    arrayMark? (mark :: ';' :: cs) = some (markKind mark, cs) := by
  simp only [List.mem_cons, List.not_mem_nil, or_false] at hmark
  rcases hmark with rfl | rfl | rfl <;> rfl

theorem arrayOf_eq_ok {mark : Char} {ts : List Tag} (hmark : mark ∈ ['B', 'I', 'L']) :
    arrayOf (markKind mark) ts = .ok t ↔ MakesArray mark ts t := by
  simp only [List.mem_cons, List.not_mem_nil, or_false] at hmark
  rcases hmark with rfl | rfl | rfl
  · have hkind : markKind 'B' = .byteArray := rfl
    simp only [hkind, arrayOf, map_eq_ok, elementsOf_eq_ok,
      forall₂_map_iff fun _ => byteElement?_eq_some]
    constructor
    · rintro ⟨vs, rfl, rfl⟩
      exact .bytes vs
    · intro h
      cases h with
      | bytes vs => exact ⟨vs, rfl, rfl⟩
  · have hkind : markKind 'I' = .intArray := rfl
    simp only [hkind, arrayOf, map_eq_ok, elementsOf_eq_ok,
      forall₂_map_iff fun _ => intElement?_eq_some]
    constructor
    · rintro ⟨vs, rfl, rfl⟩
      exact .ints vs
    · intro h
      cases h with
      | ints vs => exact ⟨vs, rfl, rfl⟩
  · have hkind : markKind 'L' = .longArray := rfl
    simp only [hkind, arrayOf, map_eq_ok, elementsOf_eq_ok, longElement?_eq_some]
    constructor
    · rintro ⟨vs, hvs, rfl⟩
      exact .longs hvs
    · intro h
      cases h with
      | longs hvs => exact ⟨_, hvs, rfl⟩

end BlockConvert.Snbt
