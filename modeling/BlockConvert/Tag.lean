import BlockConvert.Kind
import BlockConvert.Table

set_option autoImplicit false

/-!
# Tags

A tag is a scalar, a text, an array of integers of one width, a list of tags of one kind, or a
compound of tags under keys. Floating point values are held as bit patterns, so that equality of
tags is equality of content. The entries of a compound are a table in key order.

`signature` writes a tag as a sequence of numbers from which it can be read back; tags are compared
and ordered by it.
-/

namespace BlockConvert

inductive Tag where
  | byte (value : Int8)
  | short (value : Int16)
  | int (value : Int32)
  | long (value : Int64)
  | float (bits : UInt32)
  | double (bits : UInt64)
  | byteArray (values : List Int8)
  | string (text : String)
  | list (element : Option Kind) (items : List Tag)
  | compound (entries : List (String × Tag))
  | intArray (values : List Int32)
  | longArray (values : List Int64)
deriving Inhabited

namespace Tag

def kind : Tag → Kind
  | byte _ => .byte
  | short _ => .short
  | int _ => .int
  | long _ => .long
  | float _ => .float
  | double _ => .double
  | byteArray _ => .byteArray
  | string _ => .string
  | list _ _ => .list
  | compound _ => .compound
  | intArray _ => .intArray
  | longArray _ => .longArray

def framed (numbers : List Nat) : List Nat := numbers.length :: numbers

mutual

/-- The numbers that spell a tag. -/
def signature : Tag → List Nat
  | byte v => [1, v.toBitVec.toNat]
  | short v => [2, v.toBitVec.toNat]
  | int v => [3, v.toBitVec.toNat]
  | long v => [4, v.toBitVec.toNat]
  | float b => [5, b.toNat]
  | double b => [6, b.toNat]
  | byteArray vs => 7 :: framed (vs.map fun v => v.toBitVec.toNat)
  | string s => 8 :: framed (s.toList.map Char.toNat)
  | list element items => 9 :: (element.elim 0 Kind.id) :: signatures items
  | compound entries => 10 :: entrySignatures entries
  | intArray vs => 11 :: framed (vs.map fun v => v.toBitVec.toNat)
  | longArray vs => 12 :: framed (vs.map fun v => v.toBitVec.toNat)

def signatures : List Tag → List Nat
  | [] => [0]
  | t :: rest => 1 :: (signature t ++ signatures rest)

def entrySignatures : List (String × Tag) → List Nat
  | [] => [0]
  | (k, t) :: rest =>
    1 :: (framed (k.toList.map Char.toNat) ++ (signature t ++ entrySignatures rest))

end

theorem framed_append_inj {α : Type} {f : α → Nat} (inj : ∀ {x y}, f x = f y → x = y)
    {xs ys : List α} {r s : List Nat} (h : framed (xs.map f) ++ r = framed (ys.map f) ++ s) :
    xs = ys ∧ r = s := by
  simp only [framed, List.length_map, List.cons_append, List.cons.injEq] at h
  obtain ⟨hl, ha⟩ := h
  have := List.append_inj ha (by simpa using hl)
  exact ⟨List.map_inj_right (fun x y => inj) |>.1 this.1, this.2⟩

theorem element_inj {a b : Option Kind} (h : a.elim 0 Kind.id = b.elim 0 Kind.id) : a = b := by
  cases a with
  | none => cases b with
    | none => rfl
    | some k => cases k <;> simp [Kind.id] at h
  | some k => cases b with
    | none => cases k <;> simp [Kind.id] at h
    | some l => rw [Kind.id_injective h]

private theorem charsInj {a b : String} (h : a.toList = b.toList) : a = b :=
  String.toList_injective h

mutual

theorem signature_append_inj : ∀ (t u : Tag) (r s : List Nat),
    signature t ++ r = signature u ++ s → t = u ∧ r = s
  | t, u, r, s, h => by
    cases t <;> cases u <;>
      simp only [signature, List.cons_append, List.nil_append, List.cons.injEq,
        Nat.reduceEqDiff, false_and, true_and, Nat.succ_ne_self] at h
    case byte.byte v w =>
      exact ⟨by rw [Int8.toBitVec_inj.1 (BitVec.eq_of_toNat_eq h.1)], h.2⟩
    case short.short v w =>
      exact ⟨by rw [Int16.toBitVec_inj.1 (BitVec.eq_of_toNat_eq h.1)], h.2⟩
    case int.int v w =>
      exact ⟨by rw [Int32.toBitVec_inj.1 (BitVec.eq_of_toNat_eq h.1)], h.2⟩
    case long.long v w =>
      exact ⟨by rw [Int64.toBitVec_inj.1 (BitVec.eq_of_toNat_eq h.1)], h.2⟩
    case float.float v w => exact ⟨by rw [UInt32.toNat_inj.1 h.1], h.2⟩
    case double.double v w => exact ⟨by rw [UInt64.toNat_inj.1 h.1], h.2⟩
    case byteArray.byteArray vs ws =>
      obtain ⟨e, e'⟩ := framed_append_inj
        (fun {x y} h => Int8.toBitVec_inj.1 (BitVec.eq_of_toNat_eq h)) h
      exact ⟨by rw [e], e'⟩
    case string.string a b =>
      obtain ⟨e, e'⟩ := framed_append_inj (fun {x y} h => Char.toNat_inj.1 h) h
      exact ⟨by rw [charsInj e], e'⟩
    case list.list e items e' items' =>
      obtain ⟨h1, h2⟩ := signatures_append_inj items items' r s h.2
      exact ⟨by rw [element_inj h.1, h1], h2⟩
    case compound.compound es es' =>
      obtain ⟨h1, h2⟩ := entrySignatures_append_inj es es' r s h
      exact ⟨by rw [h1], h2⟩
    case intArray.intArray vs ws =>
      obtain ⟨e, e'⟩ := framed_append_inj
        (fun {x y} h => Int32.toBitVec_inj.1 (BitVec.eq_of_toNat_eq h)) h
      exact ⟨by rw [e], e'⟩
    case longArray.longArray vs ws =>
      obtain ⟨e, e'⟩ := framed_append_inj
        (fun {x y} h => Int64.toBitVec_inj.1 (BitVec.eq_of_toNat_eq h)) h
      exact ⟨by rw [e], e'⟩

theorem signatures_append_inj : ∀ (ts us : List Tag) (r s : List Nat),
    signatures ts ++ r = signatures us ++ s → ts = us ∧ r = s
  | [], [], r, s, h => by simpa [signatures] using h
  | [], u :: us, r, s, h => by simp [signatures] at h
  | t :: ts, [], r, s, h => by simp [signatures] at h
  | t :: ts, u :: us, r, s, h => by
    simp only [signatures, List.cons_append, List.cons.injEq, true_and, List.append_assoc] at h
    obtain ⟨h1, h2⟩ := signature_append_inj t u _ _ h
    obtain ⟨h3, h4⟩ := signatures_append_inj ts us r s h2
    exact ⟨by rw [h1, h3], h4⟩

theorem entrySignatures_append_inj : ∀ (es fs : List (String × Tag)) (r s : List Nat),
    entrySignatures es ++ r = entrySignatures fs ++ s → es = fs ∧ r = s
  | [], [], r, s, h => by simpa [entrySignatures] using h
  | [], f :: fs, r, s, h => by simp [entrySignatures] at h
  | e :: es, [], r, s, h => by simp [entrySignatures] at h
  | (k, t) :: es, (l, u) :: fs, r, s, h => by
    simp only [entrySignatures, List.cons_append, List.cons.injEq, true_and, List.append_assoc] at h
    obtain ⟨h0, h⟩ := framed_append_inj (fun {x y} h => Char.toNat_inj.1 h) h
    obtain ⟨h1, h2⟩ := signature_append_inj t u _ _ h
    obtain ⟨h3, h4⟩ := entrySignatures_append_inj es fs r s h2
    exact ⟨by rw [charsInj h0, h1, h3], h4⟩

end

theorem signature_injective {t u : Tag} (h : signature t = signature u) : t = u := by
  have := signature_append_inj t u [] [] (by rw [h])
  exact this.1

instance : DecidableEq Tag := fun t u =>
  decidable_of_iff (signature t = signature u) ⟨signature_injective, fun h => by rw [h]⟩

instance : KeyOrder Tag := KeyOrder.lift signature signature_injective

def empty : Kind → Tag
  | .byte => byte 0
  | .short => short 0
  | .int => int 0
  | .long => long 0
  | .float => float 0
  | .double => double 0
  | .byteArray => byteArray []
  | .string => string ""
  | .list => list none []
  | .compound => compound []
  | .intArray => intArray []
  | .longArray => longArray []

@[simp] theorem kind_empty (k : Kind) : (empty k).kind = k := by cases k <;> rfl

theorem exists_eq_compound {t : Tag} (h : t.kind = .compound) :
    ∃ entries, t = .compound entries := by
  cases t <;> first | exact ⟨_, rfl⟩ | contradiction

def text? : Tag → Option String
  | string s => some s
  | _ => none

def entries? : Tag → Option (List (String × Tag))
  | compound es => some es
  | _ => none

def items? : Tag → Option (List Tag)
  | list _ items => some items
  | _ => none

def child? (t : Tag) (key : String) : Option Tag := t.entries?.bind (Table.get? · key)

def integer? : Tag → Option Int64
  | byte v => some v.toInt64
  | short v => some v.toInt64
  | int v => some v.toInt64
  | long v => some v
  | _ => none

end Tag

end BlockConvert
