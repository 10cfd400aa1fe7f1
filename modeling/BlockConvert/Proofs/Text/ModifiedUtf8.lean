import BlockConvert.Text.ModifiedUtf8
import Mathlib.Data.List.Basic

set_option autoImplicit false

/-!
# Stored texts are read back

Read one character at a time, the variant of UTF-8 gives back every text. Standard UTF-8 is tried
first, so it must not take a stored text for another one: on the bytes of a character it gives that
character, or fails if the variant writes the character in a way of its own.
-/

namespace BlockConvert.Text

variable {n : Nat} {c : Char} {rest : List UInt8}

/-! ## Bytes and code points -/

theorem toNat_byte (h : n < 256) : (UInt8.ofNat n).toNat = n := by
  rw [UInt8.toNat_ofNat']
  exact Nat.mod_eq_of_lt h

theorem byte_lt (h : n < 256) (m : UInt8) : UInt8.ofNat n < m ↔ n < m.toNat := by
  rw [UInt8.lt_iff_toNat_lt, toNat_byte h]

theorem le_byte (h : n < 256) (m : UInt8) : m ≤ UInt8.ofNat n ↔ m.toNat ≤ n := by
  rw [UInt8.le_iff_toNat_le, toNat_byte h]

theorem byte_ne {m : UInt8} (h : n < 256) (hne : n ≠ m.toNat) : UInt8.ofNat n ≠ m := by
  intro heq
  rw [← heq, toNat_byte h] at hne
  contradiction

theorem code_cases (c : Char) : c.toNat < 0xD800 ∨ 0xDFFF < c.toNat ∧ c.toNat < 0x110000 :=
  c.valid

theorem char?_toNat (c : Char) : char? c.toNat = some c := dif_pos c.valid

theorem char?_surrogate (hlow : 0xD800 ≤ n) (hhigh : n < 0xE000) : char? n = none := by
  refine dif_neg ?_
  rintro (h | h) <;> omega

theorem payload?_continuation (n : Nat) : payload? (continuation n) = some (n % 64) := by
  have hbyte : 0x80 + n % 64 < 256 := by omega
  have hrange : 0x80 ≤ continuation n ∧ continuation n < 0xC0 := by
    rw [continuation, le_byte hbyte, byte_lt hbyte]
    have hleast : (0x80 : UInt8).toNat = 0x80 := rfl
    have hbound : (0xC0 : UInt8).toNat = 0xC0 := rfl
    omega
  rw [payload?, if_pos hrange, continuation, toNat_byte hbyte, Nat.add_sub_cancel_left]

/-! ## Heads -/

theorem lead_range (h : n < 0x10000) :
    0xE0 ≤ UInt8.ofNat (0xE0 + n / 4096) ∧ UInt8.ofNat (0xE0 + n / 4096) < 0xF0 := by
  have hbyte : 0xE0 + n / 4096 < 256 := by omega
  rw [le_byte hbyte, byte_lt hbyte]
  have hleast : (0xE0 : UInt8).toNat = 0xE0 := rfl
  have hbound : (0xF0 : UInt8).toNat = 0xF0 := rfl
  omega

theorem threeByteHead?_threeBytes (h : n < 0x10000) (rest : List UInt8) :
    threeByteHead? (threeBytes n ++ rest) = some (n, rest) := by
  have hbyte : (UInt8.ofNat (0xE0 + n / 4096)).toNat = 0xE0 + n / 4096 := toNat_byte (by omega)
  have hvalue : n / 4096 * 4096 + n / 64 % 64 * 64 + n % 64 = n := by omega
  simp only [threeBytes, List.cons_append, List.nil_append, threeByteHead?, payload?_continuation,
    hbyte, lead_range h, Nat.add_sub_cancel_left, hvalue, bind, Option.bind, and_self, if_true]
  rfl

theorem threeByteHead?_of_lt {a : UInt8} (h : a < 0xE0) : threeByteHead? (a :: rest) = none := by
  have hrange : ¬(0xE0 ≤ a ∧ a < 0xF0) := fun hlead => absurd h (UInt8.not_lt.2 hlead.1)
  unfold threeByteHead?
  split
  · rename_i heq
    cases heq
    simp [hrange]
  · rfl

theorem standardHead?_threeBytes (hlow : 0x800 ≤ n) (hhigh : n < 0x10000) (rest : List UInt8) :
    standardHead? (threeBytes n ++ rest) = (char? n).map (·, 3) := by
  have hbyte : (UInt8.ofNat (0xE0 + n / 4096)).toNat = 0xE0 + n / 4096 := toNat_byte (by omega)
  have hlead := lead_range hhigh
  have hascii : ¬UInt8.ofNat (0xE0 + n / 4096) < 0x80 := fun h =>
    absurd (UInt8.lt_of_lt_of_le h (by decide : (0x80 : UInt8) ≤ 0xE0)) (UInt8.not_lt.2 hlead.1)
  have htwo : ¬(0xC2 ≤ UInt8.ofNat (0xE0 + n / 4096) ∧ UInt8.ofNat (0xE0 + n / 4096) < 0xE0) :=
    fun h => absurd h.2 (UInt8.not_lt.2 hlead.1)
  have hvalue : n / 4096 * 4096 + n / 64 % 64 * 64 + n % 64 = n := by omega
  simp only [threeBytes, List.cons_append, List.nil_append]
  rw [standardHead?, if_neg hascii, if_neg htwo, if_pos hlead]
  simp only [payload?_continuation, hbyte, Nat.add_sub_cancel_left, hvalue, hlow, bind,
    Option.bind, if_true]
  cases char? n <;> rfl

theorem standardHead?_ascii (h : c.toNat < 0x80) (rest : List UInt8) :
    standardHead? (UInt8.ofNat c.toNat :: rest) = some (c, 1) := by
  have hbyte : c.toNat < 256 := by omega
  have hascii : UInt8.ofNat c.toNat < 0x80 := (byte_lt hbyte _).2 h
  unfold standardHead?
  simp only [if_pos hascii, toNat_byte hbyte, char?_toNat, Option.map_some]

theorem standardHead?_twoBytes (hlow : 0x80 ≤ c.toNat) (hhigh : c.toNat < 0x800)
    (rest : List UInt8) :
    standardHead? (UInt8.ofNat (0xC0 + c.toNat / 64) :: continuation c.toNat :: rest) =
      some (c, 2) := by
  have hbyte : 0xC0 + c.toNat / 64 < 256 := by omega
  have hascii : ¬UInt8.ofNat (0xC0 + c.toNat / 64) < 0x80 := by
    rw [byte_lt hbyte]
    have hbound : (0x80 : UInt8).toNat = 0x80 := rfl
    omega
  have htwo : 0xC2 ≤ UInt8.ofNat (0xC0 + c.toNat / 64) ∧
      UInt8.ofNat (0xC0 + c.toNat / 64) < 0xE0 := by
    rw [le_byte hbyte, byte_lt hbyte]
    have hleast : (0xC2 : UInt8).toNat = 0xC2 := rfl
    have hbound : (0xE0 : UInt8).toNat = 0xE0 := rfl
    omega
  have hvalue : c.toNat / 64 * 64 + c.toNat % 64 = c.toNat := by omega
  rw [standardHead?, if_neg hascii, if_pos htwo]
  simp only [payload?_continuation, toNat_byte hbyte, Nat.add_sub_cancel_left, hvalue, char?_toNat,
    bind, Option.bind]
  rfl

/-- The characters that both encodings write alike: no zero, and none beyond the basic plane. -/
def IsPlain (c : Char) : Prop := 0 < c.toNat ∧ c.toNat < 0x10000

theorem standardHead?_plain (h : IsPlain c) (rest : List UInt8) :
    standardHead? (encodeChar c ++ rest) = some (c, (encodeChar c).length) := by
  obtain ⟨hpos, hplane⟩ := h
  unfold encodeChar
  simp only [Nat.ne_of_gt hpos, hplane, if_false, if_true]
  split
  · rename_i hascii
    exact standardHead?_ascii hascii rest
  split
  · rename_i hascii htwo
    exact standardHead?_twoBytes (Nat.le_of_not_lt hascii) htwo rest
  · rename_i _ htwo
    rw [standardHead?_threeBytes (Nat.le_of_not_lt htwo) hplane, char?_toNat]
    rfl

theorem standardHead?_special (h : ¬IsPlain c) (rest : List UInt8) :
    standardHead? (encodeChar c ++ rest) = none := by
  unfold encodeChar
  by_cases hzero : c.toNat = 0
  · simp only [hzero, if_true]
    rfl
  · have hplane : ¬c.toNat < 0x10000 := fun hlt => h ⟨Nat.pos_of_ne_zero hzero, hlt⟩
    have hbeyond := code_cases c
    have hascii : ¬c.toNat < 0x80 := by omega
    have htwo : ¬c.toNat < 0x800 := by omega
    simp only [hzero, hascii, htwo, hplane, if_false, List.append_assoc]
    rw [standardHead?_threeBytes (by omega) (by omega), char?_surrogate (by omega) (by omega)]
    rfl

theorem modifiedHead?_of_lt {a : UInt8} (hpos : a ≠ 0) (hzero : a ≠ 0xC0) (h : a < 0xE0) :
    modifiedHead? (a :: rest) = standardHead? (a :: rest) := by
  have hlong : ¬0xF0 ≤ a :=
    UInt8.not_le.2 (UInt8.lt_of_lt_of_le h (by decide : (0xE0 : UInt8) ≤ 0xF0))
  simp only [modifiedHead?, hpos, hzero, hlong, if_false, threeByteHead?_of_lt h]

theorem lead_ne (h : n < 0x10000) :
    UInt8.ofNat (0xE0 + n / 4096) ≠ 0 ∧ UInt8.ofNat (0xE0 + n / 4096) ≠ 0xC0 := by
  refine ⟨byte_ne (by omega) (by simp), byte_ne (by omega) ?_⟩
  have hmark : (0xC0 : UInt8).toNat = 0xC0 := rfl
  omega

theorem modifiedHead?_basic (h : n < 0x10000) (hbasic : ¬(0xD800 ≤ n ∧ n < 0xDC00))
    (rest : List UInt8) :
    modifiedHead? (threeBytes n ++ rest) = standardHead? (threeBytes n ++ rest) := by
  obtain ⟨hpos, hzero⟩ := lead_ne h
  have hhead := threeByteHead?_threeBytes h rest
  simp only [threeBytes, List.cons_append, List.nil_append] at hhead ⊢
  simp only [modifiedHead?, hpos, hzero, UInt8.not_le.2 (lead_range h).2, if_false, hhead,
    if_neg hbasic]

theorem modifiedHead?_pair {m : Nat} (hhigh : 0xD800 ≤ n ∧ n < 0xDC00)
    (hlow : 0xDC00 ≤ m ∧ m < 0xE000) (rest : List UInt8) :
    modifiedHead? (threeBytes n ++ (threeBytes m ++ rest)) =
      (char? (0x10000 + (n - 0xD800) * 1024 + (m - 0xDC00))).map (·, 6) := by
  have h : n < 0x10000 := by omega
  obtain ⟨hpos, hzero⟩ := lead_ne h
  have hhead := threeByteHead?_threeBytes h (threeBytes m ++ rest)
  have htail := threeByteHead?_threeBytes (by omega : m < 0x10000) rest
  generalize threeBytes m ++ rest = tail at hhead htail ⊢
  simp only [threeBytes, List.cons_append, List.nil_append] at hhead ⊢
  simp only [modifiedHead?, hpos, hzero, UInt8.not_le.2 (lead_range h).2, if_false, hhead,
    if_pos hhigh, htail, if_pos hlow]

theorem modifiedHead?_plain (h : IsPlain c) (rest : List UInt8) :
    modifiedHead? (encodeChar c ++ rest) = standardHead? (encodeChar c ++ rest) := by
  obtain ⟨hpos, hplane⟩ := h
  have hcode := code_cases c
  unfold encodeChar
  simp only [Nat.ne_of_gt hpos, hplane, if_false, if_true]
  split
  · have hbyte : c.toNat < 256 := by omega
    refine modifiedHead?_of_lt (byte_ne hbyte ?_) (byte_ne hbyte ?_) ((byte_lt hbyte _).2 ?_) <;>
      simp <;> omega
  split
  · have hbyte : 0xC0 + c.toNat / 64 < 256 := by omega
    refine modifiedHead?_of_lt (byte_ne hbyte ?_) (byte_ne hbyte ?_) ((byte_lt hbyte _).2 ?_) <;>
      simp <;> omega
  · exact modifiedHead?_basic hplane (by omega) rest

theorem modifiedHead?_special (h : ¬IsPlain c) (rest : List UInt8) :
    modifiedHead? (encodeChar c ++ rest) = some (c, (encodeChar c).length) := by
  unfold encodeChar
  by_cases hzero : c.toNat = 0
  · have hc : c = '\x00' := Char.toNat_inj.1 hzero
    subst hc
    rfl
  · have hplane : ¬c.toNat < 0x10000 := fun hlt => h ⟨Nat.pos_of_ne_zero hzero, hlt⟩
    have hbeyond := code_cases c
    have hascii : ¬c.toNat < 0x80 := by omega
    have htwo : ¬c.toNat < 0x800 := by omega
    have hhigh : 0xD800 ≤ 0xD800 + (c.toNat - 0x10000) / 1024 ∧
        0xD800 + (c.toNat - 0x10000) / 1024 < 0xDC00 := by omega
    have hlow : 0xDC00 ≤ 0xDC00 + (c.toNat - 0x10000) % 1024 ∧
        0xDC00 + (c.toNat - 0x10000) % 1024 < 0xE000 := by omega
    have hvalue : 0x10000 + (c.toNat - 0x10000) / 1024 * 1024 + (c.toNat - 0x10000) % 1024 =
        c.toNat := by omega
    simp only [hzero, hascii, htwo, hplane, if_false, List.append_assoc]
    rw [modifiedHead?_pair hhigh hlow, Nat.add_sub_cancel_left, Nat.add_sub_cancel_left, hvalue,
      char?_toNat]
    rfl

theorem modifiedHead?_encodeChar (c : Char) (rest : List UInt8) :
    modifiedHead? (encodeChar c ++ rest) = some (c, (encodeChar c).length) := by
  by_cases h : IsPlain c
  · rw [modifiedHead?_plain h, standardHead?_plain h]
  · exact modifiedHead?_special h rest

/-! ## Texts -/

theorem encodeChar_ne_nil (c : Char) : encodeChar c ≠ [] := by
  simp only [encodeChar, threeBytes]
  split_ifs <;> simp

theorem decodeBy_nil (head? : List UInt8 → Option (Char × Nat)) (bound : Nat) :
    decodeBy head? bound [] = some [] := by
  cases bound <;> rfl

section Steps

variable {head? : List UInt8 → Option (Char × Nat)} {bound : Nat} {cs : List Char}

theorem decodeBy_succ (b : UInt8) (bs : List UInt8) : decodeBy head? (bound + 1) (b :: bs) =
    (head? (b :: bs)).bind fun (c, width) =>
      (decodeBy head? bound ((b :: bs).drop width)).bind fun rest => some (c :: rest) := rfl

theorem decodeBy_cons (hhead : head? (encodeChar c ++ encodeModified cs) =
    some (c, (encodeChar c).length)) :
    decodeBy head? (bound + 1) (encodeModified (c :: cs)) =
      (decodeBy head? bound (encodeModified cs)).map (c :: ·) := by
  have happend : encodeModified (c :: cs) = encodeChar c ++ encodeModified cs := rfl
  obtain ⟨b, bs, hbytes⟩ := List.exists_cons_of_ne_nil (encodeChar_ne_nil c)
  have hdrop : (encodeChar c ++ encodeModified cs).drop (encodeChar c).length = encodeModified cs :=
    List.drop_left
  rw [happend]
  rw [hbytes, List.cons_append] at hhead hdrop ⊢
  rw [decodeBy_succ, hhead, Option.bind_some]
  dsimp only
  rw [hdrop]
  cases decodeBy head? bound (encodeModified cs) <;> rfl

theorem decodeBy_cons_none (hhead : head? (encodeChar c ++ encodeModified cs) = none) :
    decodeBy head? (bound + 1) (encodeModified (c :: cs)) = none := by
  have happend : encodeModified (c :: cs) = encodeChar c ++ encodeModified cs := rfl
  obtain ⟨b, bs, hbytes⟩ := List.exists_cons_of_ne_nil (encodeChar_ne_nil c)
  rw [happend]
  rw [hbytes, List.cons_append] at hhead ⊢
  rw [decodeBy_succ, hhead, Option.bind_none]

/-- Each character takes one from the bound and at least one byte. -/
theorem exists_bound (hbound : (encodeModified (c :: cs)).length ≤ bound) :
    ∃ n, bound = n + 1 ∧ (encodeModified cs).length ≤ n := by
  have hlength : (encodeModified (c :: cs)).length =
      (encodeChar c).length + (encodeModified cs).length := List.length_append
  have hpos : 0 < (encodeChar c).length := List.length_pos_of_ne_nil (encodeChar_ne_nil c)
  exact ⟨bound - 1, by omega, by omega⟩

theorem decodeBy_modifiedHead? (hbound : (encodeModified cs).length ≤ bound) :
    decodeBy modifiedHead? bound (encodeModified cs) = some cs := by
  induction cs generalizing bound with
  | nil => exact decodeBy_nil _ _
  | cons c cs ih =>
    obtain ⟨n, rfl, hn⟩ := exists_bound hbound
    rw [decodeBy_cons (modifiedHead?_encodeChar c _), ih hn]
    rfl

/-- Standard UTF-8 takes no stored text for another one. -/
theorem decodeBy_standardHead? (hbound : (encodeModified cs).length ≤ bound) :
    decodeBy standardHead? bound (encodeModified cs) = some cs ∨
      decodeBy standardHead? bound (encodeModified cs) = none := by
  induction cs generalizing bound with
  | nil => exact .inl (decodeBy_nil _ _)
  | cons c cs ih =>
    obtain ⟨n, rfl, hn⟩ := exists_bound hbound
    by_cases hplain : IsPlain c
    · rw [decodeBy_cons (standardHead?_plain hplain _)]
      rcases ih hn with h | h <;> rw [h]
      · exact .inl rfl
      · exact .inr rfl
    · exact .inr (decodeBy_cons_none (standardHead?_special hplain _))

end Steps

theorem decodeStored?_encodeModified (cs : List Char) :
    decodeStored? (encodeModified cs) = some cs := by
  rw [decodeStored?, decodeBy_modifiedHead? (Nat.le_refl _)]
  rcases decodeBy_standardHead? (Nat.le_refl (encodeModified cs).length) with h | h <;>
    rw [h] <;> rfl

end BlockConvert.Text
