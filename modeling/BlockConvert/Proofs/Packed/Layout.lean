import BlockConvert.Packed.Reader
import BlockConvert.Proofs.Text.ModifiedUtf8
import Mathlib.Algebra.Group.Nat.Defs

set_option autoImplicit false

/-!
# Reading what is laid out in bytes

Numbers, texts, runs of items and fields are read off the front of whatever follows, and what
follows is left as it is. Nothing here tells how payloads are read; the readers of items and fields
are given.
-/

namespace BlockConvert.Packed

variable {α β : Type} {read : Reader α} {bytes : List UInt8} {x : α} {width n bound : Nat}

/-- The reader takes the bytes off the front and gives the value. -/
def Takes (read : Reader α) (bytes : List UInt8) (x : α) : Prop :=
  ∀ rest, read (bytes ++ rest) = some (x, rest)

theorem Takes.map {γ : Type} (h : Takes read bytes x) (make : α → γ) :
    Takes (fun bs => (read bs).map fun (x, rest) => (make x, rest)) bytes (make x) := fun rest => by
  dsimp only
  rw [h rest]
  rfl

/-! ## Numbers -/

@[simp] theorem length_bigEndian (width n : Nat) : (bigEndian width n).length = width := by
  induction width generalizing n with
  | zero => rfl
  | succ width ih => rw [bigEndian, List.length_append, ih, List.length_singleton]

theorem ofBigEndian_bigEndian (h : n < 256 ^ width) : ofBigEndian (bigEndian width n) = n := by
  induction width generalizing n with
  | zero =>
    rw [Nat.pow_zero] at h
    rw [Nat.lt_one_iff.1 h]
    rfl
  | succ width ih =>
    have hhigh : n / 256 < 256 ^ width := by
      rw [Nat.pow_succ] at h
      exact Nat.div_lt_of_lt_mul (by rwa [Nat.mul_comm])
    have hbyte : (UInt8.ofNat n).toNat = n % 256 := UInt8.toNat_ofNat'
    have hfold := ih hhigh
    unfold ofBigEndian at hfold ⊢
    rw [bigEndian, List.foldl_append, hfold, List.foldl_cons, List.foldl_nil, hbyte]
    exact Nat.div_add_mod' n 256

theorem takes_takeBytes (bytes : List UInt8) : Takes (takeBytes bytes.length) bytes bytes := by
  intro rest
  induction bytes with
  | nil => cases rest <;> rfl
  | cons b bs ih =>
    rw [List.length_cons, List.cons_append, takeBytes, ih]
    rfl

theorem takes_number (h : n < 256 ^ width) : Takes (number width) (bigEndian width n) n := by
  intro rest
  have htake := takes_takeBytes (bigEndian width n) rest
  rw [length_bigEndian] at htake
  rw [number, htake, Option.map_some]
  dsimp only
  rw [ofBigEndian_bigEndian h]

theorem takes_length (h : n ≤ lengthLimit) : Takes length (bigEndian 4 n) n := by
  have hfits : n < 256 ^ 4 := Nat.lt_of_le_of_lt h (by decide)
  intro rest
  rw [length, takes_number hfits rest]
  simp only [bind, Option.bind, h, if_true]
  rfl

/-- A word of whole bytes, under whatever name its bits go. -/
theorem takes_word (width : Nat) (make : BitVec (8 * width) → α) (v : BitVec (8 * width)) :
    Takes (fun bs => (number width bs).map fun (n, rest) => (make (.ofNat (8 * width) n), rest))
      (bigEndian width v.toNat) (make v) := by
  have hfits : v.toNat < 256 ^ width := by
    have hlt := v.isLt
    rwa [Nat.pow_mul] at hlt
  have h := (takes_number hfits).map fun n => make (BitVec.ofNat (8 * width) n)
  rwa [BitVec.ofNat_toNat, BitVec.setWidth_eq] at h

theorem takes_int8 (v : Int8) : Takes int8 (bigEndian 1 v.toBitVec.toNat) v :=
  takes_word 1 Int8.ofBitVec v.toBitVec

theorem takes_int16 (v : Int16) : Takes int16 (bigEndian 2 v.toBitVec.toNat) v :=
  takes_word 2 Int16.ofBitVec v.toBitVec

theorem takes_int32 (v : Int32) : Takes int32 (bigEndian 4 v.toBitVec.toNat) v :=
  takes_word 4 Int32.ofBitVec v.toBitVec

theorem takes_int64 (v : Int64) : Takes int64 (bigEndian 8 v.toBitVec.toNat) v :=
  takes_word 8 Int64.ofBitVec v.toBitVec

/-! ## Texts -/

def FitsText (s : String) : Prop := (Text.encodeModified s.toList).length ≤ 65535

theorem takes_text {s : String} (h : FitsText s) : Takes text (textBytes s) s := by
  have hfits : (Text.encodeModified s.toList).length < 256 ^ 2 := Nat.lt_succ_of_le h
  intro rest
  rw [textBytes, text, List.append_assoc, takes_number hfits]
  simp only [bind, Option.bind, takes_takeBytes _ rest, Text.decodeStored?_encodeModified]
  rw [String.ofList_toList]
  rfl

/-! ## Items -/

variable {item : Reader α} {bs : List β} {f : β → List UInt8} {g : β → α}

theorem takes_times (h : ∀ b ∈ bs, Takes item (f b) (g b)) :
    Takes (times item bs.length) (bs.flatMap f) (bs.map g) := by
  intro rest
  induction bs with
  | nil => rfl
  | cons b more ih =>
    have hmore := ih fun b hb => h b (List.mem_cons_of_mem _ hb)
    rw [List.length_cons, times, List.flatMap_cons, List.append_assoc, h b (by simp)]
    simp only [bind, Option.bind, hmore]
    rfl

theorem takes_counted {vs : List α} {f : α → List UInt8} (hlength : vs.length ≤ lengthLimit)
    (h : ∀ v, Takes item (f v) v) :
    Takes (counted item) (bigEndian 4 vs.length ++ vs.flatMap f) vs := by
  intro rest
  have hitems : Takes (times item vs.length) (vs.flatMap f) (vs.map id) :=
    takes_times fun v _ => h v
  rw [List.map_id] at hitems
  rw [counted, List.append_assoc, takes_length hlength]
  exact hitems rest

/-! ## Lists and fields -/

theorem length_le_flatMap {b : β} (f : β → List UInt8) (h : b ∈ bs) :
    (f b).length ≤ (bs.flatMap f).length := by
  obtain ⟨before, after, rfl⟩ := List.append_of_mem h
  simp only [List.flatMap_append, List.flatMap_cons, List.length_append]
  omega

theorem payloads_eq_flatMap (items : List Raw) : payloads items = items.flatMap payload := by
  induction items with
  | nil => rfl
  | cons r rest ih => rw [payloads, ih, List.flatMap_cons]

def field (e : String × Raw) : List UInt8 := bigEndian 1 e.2.kind.id ++ textBytes e.1 ++ payload e.2

theorem fields_eq_flatMap (entries : List (String × Raw)) :
    fields entries = entries.flatMap field := by
  induction entries with
  | nil => rfl
  | cons e rest ih => rw [fields, ih, List.flatMap_cons, field]

theorem takes_id (k : Kind) : Takes (number 1) (bigEndian 1 k.id) k.id :=
  takes_number (by cases k <;> decide)

theorem id_ne_zero (k : Kind) : k.id ≠ 0 := by cases k <;> decide

variable {readKind : Kind → Reader Raw} {raw out : β → Raw} {name : β → String}

theorem takes_listItems {kind : Kind} (hlength : bs.length ≤ lengthLimit)
    (hkinds : ∀ b ∈ bs, (raw b).kind = kind)
    (h : ∀ b ∈ bs, Takes (readKind kind) (payload (raw b)) (out b)) :
    Takes (listItems readKind) (bigEndian 1 (elementId (bs.map raw)) ++
      bigEndian 4 (bs.map raw).length ++ payloads (bs.map raw)) (bs.map out) := by
  intro rest
  have hitems := takes_times h rest
  rw [List.length_map, payloads_eq_flatMap, List.flatMap_map, List.append_assoc, List.append_assoc]
  cases bs with
  | nil =>
    have hid : Takes (number 1) (bigEndian 1 0) 0 := takes_number (by decide)
    have hnone : elementId (([] : List β).map raw) = 0 := rfl
    have hlength : Takes length (bigEndian 4 0) 0 := takes_length (Nat.zero_le _)
    rw [hnone, List.length_nil, listItems, hid]
    simp only [bind, Option.bind, hlength _, if_true]
    rfl
  | cons b more =>
    have hid : elementId ((b :: more).map raw) = kind.id := by
      rw [List.map_cons, elementId, hkinds b (by simp)]
    rw [hid, listItems, takes_id]
    simp only [bind, Option.bind, takes_length hlength _, id_ne_zero, Kind.ofId?_id, if_false]
    exact hitems

/-- The induction is on the fields; each takes one from the bound, and so does the end. -/
theorem takes_fieldList (hbound : bs.length < bound)
    (hnames : ∀ b ∈ bs, FitsText (name b) ∧ name b ∉ Raw.reservedKeys)
    (h : ∀ b ∈ bs, Takes (readKind (raw b).kind) (payload (raw b)) (out b)) :
    Takes (fieldList readKind bound) (fields (bs.map fun b => (name b, raw b)) ++ [0])
      (bs.map fun b => (name b, out b)) := by
  intro rest
  induction bs generalizing bound with
  | nil =>
    obtain ⟨n, rfl⟩ := Nat.exists_eq_succ_of_ne_zero (Nat.ne_zero_of_lt hbound)
    rfl
  | cons b more ih =>
    obtain ⟨n, rfl⟩ := Nat.exists_eq_succ_of_ne_zero (Nat.ne_zero_of_lt hbound)
    obtain ⟨hfits, hreserved⟩ := hnames b (by simp)
    have hmore := ih (Nat.lt_of_succ_lt_succ hbound)
      (fun b hb => hnames b (List.mem_cons_of_mem _ hb)) fun b hb => h b (List.mem_cons_of_mem _ hb)
    simp only [List.map_cons, fields, List.append_assoc] at hmore ⊢
    rw [fieldList, takes_id]
    simp only [bind, Option.bind, id_ne_zero, Kind.ofId?_id, takes_text hfits _, h b (by simp) _,
      hmore, List.contains_iff_mem, hreserved, if_false]
    rfl

end BlockConvert.Packed
