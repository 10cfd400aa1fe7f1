import BlockConvert.Proofs.Decimal.ReadBack
import BlockConvert.Snbt.Printer
import BlockConvert.Text.Blank

set_option autoImplicit false

/-!
# Printed numbers are bare words

A number is printed as a bare word: its text and the suffix of its kind. The word looks like a
number, its last character tells the kind, and what is before it is read back. No other kind takes
the word first.
-/

namespace BlockConvert.Snbt

open Decimal (Format AllDigits)

variable {c suffix : Char} {cs body : List Char} {t : Tag}

theorem code_of_isBare (h : isBare c = true) :
    48 ≤ c.toNat ∧ c.toNat ≤ 57 ∨ 65 ≤ c.toNat ∧ c.toNat ≤ 90 ∨ 97 ≤ c.toNat ∧ c.toNat ≤ 122 ∨
      c.toNat = 95 ∨ c.toNat = 45 ∨ c.toNat = 46 ∨ c.toNat = 43 := by
  unfold isBare Char.isAlphanum Char.isAlpha Char.isUpper Char.isLower Char.isDigit at h
  simp only [Bool.or_eq_true, Bool.and_eq_true, decide_eq_true_eq, beq_iff_eq] at h
  have hcode : c.toNat = c.val.toNat := rfl
  simp only [ge_iff_le, UInt32.le_iff_toNat_le] at h
  rcases h with (((((h | h) | h) | rfl) | rfl) | rfl) | rfl
  · exact .inr (.inl ⟨h.1, h.2⟩)
  · exact .inr (.inr (.inl ⟨h.1, h.2⟩))
  · exact .inl ⟨h.1, h.2⟩
  all_goals decide

theorem not_isBlank_of_isBare (h : isBare c = true) : Text.isBlank c = false := by
  have hcode := code_of_isBare h
  simp only [Text.isBlank, Text.inRanges, Text.blankRanges, List.any_cons, List.any_nil,
    Bool.or_eq_false_iff, decide_eq_false_iff_not, Bool.or_false]
  omega

theorem isBare_of_isDigit (h : c.isDigit = true) : isBare c = true := by
  simp [isBare, Char.isAlphanum, h]

theorem looksNumeric_append (hne : body ≠ []) : looksNumeric (body ++ cs) = looksNumeric body := by
  obtain ⟨c, rest, rfl⟩ := List.exists_cons_of_ne_nil hne
  rfl

theorem classify_numeric (h : looksNumeric cs = true) (hnumber : number? cs = some t) :
    classify cs = t := by
  have htrue : cs ≠ "true".toList := by
    rintro rfl
    exact absurd h (by decide)
  have hfalse : cs ≠ "false".toList := by
    rintro rfl
    exact absurd h (by decide)
  rw [classify, if_neg htrue, if_neg hfalse, if_pos h, hnumber]
  rfl

theorem classify_suffixed (hlooks : looksNumeric body = true) (h : suffixed? body suffix = some t) :
    classify (body ++ [suffix]) = t := by
  have hne : body ≠ [] := by
    rintro rfl
    contradiction
  refine classify_numeric ((looksNumeric_append hne).trans hlooks) ?_
  rw [number?, List.getLast?_concat, List.dropLast_concat, Option.bind_some, h]
  rfl

theorem looksNumeric_signed (n : Int) : looksNumeric (Decimal.signed n) = true := by
  obtain ⟨ds, hds, hne, h | h⟩ := Decimal.signed_cases n
  · obtain ⟨c, rest, rfl⟩ := List.exists_cons_of_ne_nil hne
    rw [h]
    simp [looksNumeric, hds c (by simp)]
  · rw [h]
    rfl

theorem isBare_signed (n : Int) : ∀ c ∈ Decimal.signed n, isBare c = true := by
  intro c hc
  rcases Decimal.Notation.signed_chars n c hc with h | rfl | rfl | rfl
  · exact isBare_of_isDigit h
  all_goals decide

theorem suffixed?_of_isDigit (h : c.isDigit = true) (body : List Char) :
    suffixed? body c = none := by
  unfold suffixed?
  rw [Decimal.Literal.toLower_of_isDigit h]
  split <;> first | rfl | contradiction

theorem isSigned_of_bounds {bits : Nat} {n low high : Int} (hlow : low ≤ n) (hhigh : n < high)
    (hleast : Decimal.leastSigned bits = low) (hgreatest : Decimal.greatestSigned bits + 1 = high) :
    Decimal.isSigned bits n = true := by
  rw [Decimal.isSigned, decide_eq_true_eq]
  omega

theorem classify_integer (suffix : Char) {bits : Nat} {n : Int} {make : Int → Tag}
    (hrange : Decimal.isSigned bits n = true)
    (hkind : ∀ body, suffixed? body suffix = (Decimal.signedIn? bits body).map make) :
    classify (Decimal.signed n ++ [suffix]) = make n := by
  refine classify_suffixed (looksNumeric_signed n) ?_
  rw [hkind, Decimal.signedIn?_signed hrange]
  rfl

theorem classify_byte (v : Int8) : classify (render (.byte v)) = .byte v := by
  have hrange : Decimal.isSigned 8 v.toInt = true :=
    isSigned_of_bounds (Int8.le_toInt v) (Int8.toInt_lt v) (by decide) (by decide)
  have h := classify_integer 'b' hrange fun _ => rfl
  rwa [Int8.ofInt_toInt] at h

theorem classify_short (v : Int16) : classify (render (.short v)) = .short v := by
  have hrange : Decimal.isSigned 16 v.toInt = true :=
    isSigned_of_bounds (Int16.le_toInt v) (Int16.toInt_lt v) (by decide) (by decide)
  have h := classify_integer 's' hrange fun _ => rfl
  rwa [Int16.ofInt_toInt] at h

theorem classify_long (v : Int64) : classify (render (.long v)) = .long v := by
  have hrange : Decimal.isSigned 64 v.toInt = true :=
    isSigned_of_bounds (Int64.le_toInt v) (Int64.toInt_lt v) (by decide) (by decide)
  have h := classify_integer 'L' hrange fun _ => rfl
  rwa [Int64.ofInt_toInt] at h

theorem classify_int (v : Int32) : classify (render (.int v)) = .int v := by
  have hrange : Decimal.isSigned 32 v.toInt = true :=
    isSigned_of_bounds (Int32.le_toInt v) (Int32.toInt_lt v) (by decide) (by decide)
  rw [render]
  refine classify_numeric (looksNumeric_signed _) ?_
  have hsuffix : ∀ c ∈ (Decimal.signed v.toInt).getLast?,
      suffixed? (Decimal.signed v.toInt).dropLast c = none := by
    intro c hc
    refine suffixed?_of_isDigit ?_ _
    obtain ⟨ds, hds, hne, h | h⟩ := Decimal.signed_cases v.toInt
    · rw [h] at hc
      exact hds c (List.mem_of_getLast? hc)
    · rw [h, List.getLast?_cons_of_ne_nil hne] at hc
      exact hds c (List.mem_of_getLast? hc)
  have hnone : ((Decimal.signed v.toInt).getLast?.bind fun c =>
      suffixed? (Decimal.signed v.toInt).dropLast c) = none := Option.bind_eq_none_iff.2 hsuffix
  rw [number?, hnone, int?, Decimal.signedIn?_signed hrange, Option.map_some, Int32.ofInt_toInt]
  rfl

theorem looksNumeric_of_spells (h : Format.Spells cs) : looksNumeric cs = true := by
  rcases h with ⟨negative, ds, hds, rfl⟩ | rfl
  · cases negative with
    | true => rfl
    | false =>
      obtain ⟨c, hhead, hc⟩ := hds.head
      cases ds with
      | nil => contradiction
      | cons d rest =>
        obtain rfl : d = c := Option.some.inj hhead
        simp [looksNumeric, hc]
  · decide

theorem isBare_of_spells (h : Format.Spells cs) : ∀ c ∈ cs, isBare c = true := by
  rcases h with ⟨negative, ds, hds, rfl⟩ | rfl
  · intro c hc
    rcases List.mem_append.1 hc with hsign | hmem
    · cases negative with
      | true => rw [List.mem_singleton.1 hsign]; decide
      | false => contradiction
    · rcases hds.chars c hmem with h | rfl | rfl | rfl
      · exact isBare_of_isDigit h
      all_goals decide
  · intro c hc
    simp only [List.mem_cons, List.not_mem_nil, or_false] at hc
    rcases hc with rfl | rfl | rfl | rfl <;> decide

theorem fits_float (b : UInt32) : Format.single.Fits b.toNat := by
  have hbits : 2 * Format.single.signBit = 2 ^ 32 := by decide
  rw [Format.Fits, hbits]
  exact b.toNat_lt

theorem fits_double (b : UInt64) : Format.double.Fits b.toNat := by
  have hbits : 2 * Format.double.signBit = 2 ^ 64 := by decide
  rw [Format.Fits, hbits]
  exact b.toNat_lt

theorem classify_floating (suffix : Char) {f : Format} {bits : Nat} {make : Nat → Tag}
    (hf : f.Supported) (hfits : f.Fits bits) (h : f.HasText bits)
    (hkind : ∀ body, looksNumeric body = true →
      suffixed? body suffix = (Decimal.floating? f body).map make) :
    classify (renderFloating f bits suffix) = make bits := by
  obtain ⟨hspells, hread⟩ := Format.floating?_text hf hfits h
  have hlooks := looksNumeric_of_spells hspells
  refine classify_suffixed hlooks ?_
  rw [hkind _ hlooks, hread]
  rfl

theorem classify_float {b : UInt32} (h : Format.single.HasText b.toNat) :
    classify (render (.float b)) = .float b := by
  have hread := classify_floating 'f' Format.single_supported (fits_float b) h fun _ hlooks =>
    if_pos hlooks
  rwa [UInt32.ofNat_toNat] at hread

theorem classify_double {b : UInt64} (h : Format.double.HasText b.toNat) :
    classify (render (.double b)) = .double b := by
  have hread := classify_floating 'd' Format.double_supported (fits_double b) h fun _ hlooks =>
    if_pos hlooks
  rwa [UInt64.ofNat_toNat] at hread

end BlockConvert.Snbt
