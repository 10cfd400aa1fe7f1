import BlockConvert.Decimal.Notation
import BlockConvert.Decimal.Reader
import BlockConvert.Proofs.Decimal.Digits
import BlockConvert.Proofs.Decimal.Patterns
import BlockConvert.Proofs.Decimal.Shortest

set_option autoImplicit false

/-!
# Spelling and reading floating point values

However the shortest decimal of a value is laid out, with a point, with zeros or with an exponent,
it is read as a decimal of the same value. So the text of a finite value is read as its pattern.
-/

namespace BlockConvert.Decimal

theorem takeWhile_until {p : Char → Bool} {cs : List Char} (tail : List Char)
    (hcs : ∀ c ∈ cs, p c = true) (htail : ∀ c ∈ tail.head?, p c = false) :
    (cs ++ tail).takeWhile p = cs ∧ (cs ++ tail).dropWhile p = tail := by
  have hnone : tail.takeWhile p = [] ∧ tail.dropWhile p = tail := by
    cases tail with
    | nil => exact ⟨rfl, rfl⟩
    | cons c rest =>
      have hc : p c = false := htail c rfl
      simp [hc]
  rw [List.takeWhile_append_of_pos hcs, List.dropWhile_append_of_pos hcs, hnone.1, hnone.2,
    List.append_nil]
  exact ⟨rfl, rfl⟩

namespace Literal

variable {n : Nat} {x : ℤ}

theorem number?_pointed {whole fraction : List Char} (tail : List Char)
    (hwhole : AllDigits whole) (hfraction : AllDigits fraction) (hne : whole ≠ [])
    (htail : ∀ c ∈ tail.head?, c.isDigit = false)
    (hdigits : foldDigits 0 (whole ++ fraction) = some n) (hexponent : exponent? tail = some x) :
    number? (whole ++ '.' :: (fraction ++ tail)) = some (.number n (x - fraction.length)) := by
  obtain ⟨htake, hdrop⟩ := takeWhile_until ('.' :: (fraction ++ tail)) hwhole (by simp)
  obtain ⟨htake', hdrop'⟩ := takeWhile_until tail hfraction htail
  simp only [number?, htake, hdrop, htake', hdrop', hdigits, hexponent]
  simp [hne]

theorem number?_whole {whole tail : List Char} (hwhole : AllDigits whole) (hne : whole ≠ [])
    (htail : ∀ c ∈ tail.head?, c = 'e') (hdigits : foldDigits 0 whole = some n)
    (hexponent : exponent? tail = some x) : number? (whole ++ tail) = some (.number n x) := by
  obtain ⟨htake, hdrop⟩ := takeWhile_until tail hwhole fun c hc => by
    rw [htail c hc]
    rfl
  cases tail with
  | nil =>
    rw [List.append_nil] at htake hdrop ⊢
    simp only [number?, htake, hdrop]
    simp [hne, hdigits, hexponent]
  | cons c rest =>
    obtain rfl : c = 'e' := htail c rfl
    simp only [number?, htake, hdrop]
    simp [hne, hdigits, hexponent]

theorem exponent?_signed (x : ℤ) : exponent? ('e' :: signed x) = some x := integer?_signed x

end Literal

namespace Notation

open Literal

variable {s : Scientific}

def SpelledAs (cs : List Char) (s : Scientific) : Prop :=
  ∃ n x, number? cs = some (.number n x) ∧ (⟨n, x⟩ : Scientific).toRat = s.toRat

theorem spelledAs_of_eq {cs : List Char} {n : Nat} {x : ℤ}
    (hread : number? cs = some (.number n x)) (hdigits : n = s.digits)
    (hexponent : x = s.exponent) : SpelledAs cs s :=
  ⟨n, x, hread, by rw [hdigits, hexponent]⟩

theorem spelledAs_small {point : ℤ} (hlow : point ≤ 0)
    (hpoint : point = (digits s.digits).length + s.exponent) :
    SpelledAs (tagged.positionalText (digits s.digits) point) s := by
  have hfraction : AllDigits (List.replicate (-point).toNat '0' ++ digits s.digits) :=
    (allDigits_zeros _).append (allDigits_digits _)
  have hzero : AllDigits ['0'] := allDigits_zeros 1
  have hread := number?_pointed [] (x := 0) hzero hfraction (by simp) (by simp)
    (foldDigits_leading (_ + 1) _) rfl
  rw [List.append_nil] at hread
  rw [positionalText, if_pos hlow]
  refine spelledAs_of_eq hread rfl ?_
  rw [List.length_append, List.length_replicate]
  omega

theorem spelledAs_whole {point : ℤ} (hlow : 0 < point)
    (hlong : (digits s.digits).length ≤ point.toNat)
    (hpoint : point = (digits s.digits).length + s.exponent) :
    SpelledAs (tagged.positionalText (digits s.digits) point) s := by
  have hwhole : AllDigits (digits s.digits ++
      List.replicate (point.toNat - (digits s.digits).length) '0') :=
    (allDigits_digits _).append (allDigits_zeros _)
  have hdigits : foldDigits 0 ((digits s.digits ++
      List.replicate (point.toNat - (digits s.digits).length) '0') ++ ['0']) =
      some (s.digits * tenTo (point.toNat - (digits s.digits).length + 1)) := by
    rw [List.append_assoc, ← List.replicate_succ', foldDigits_trailing]
  have hread := number?_pointed [] (x := 0) hwhole (allDigits_zeros 1) (by simp [digits_ne_nil])
    (by simp) hdigits rfl
  refine ⟨s.digits * tenTo (point.toNat - (digits s.digits).length + 1), -1, ?_, ?_⟩
  · rw [positionalText, if_neg (by omega), if_pos hlong]
    exact hread
  · simp only [Scientific.toRat]
    have hexponent : s.exponent = ((point.toNat - (digits s.digits).length : Nat) : ℤ) := by omega
    rw [hexponent, zpow_natCast, Nat.cast_mul, cast_tenTo, pow_succ]
    simp
    field_simp

theorem spelledAs_between {point : ℤ} (hlow : 0 < point)
    (hshort : ¬(digits s.digits).length ≤ point.toNat)
    (hpoint : point = (digits s.digits).length + s.exponent) :
    SpelledAs (tagged.positionalText (digits s.digits) point) s := by
  have hall := allDigits_digits s.digits
  have hdigits : foldDigits 0 ((digits s.digits).take point.toNat ++
      (digits s.digits).drop point.toNat) = some s.digits := by
    rw [List.take_append_drop, foldDigits_digits]
  have hread := number?_pointed [] (x := 0)
    (fun c hc => hall c (List.mem_of_mem_take hc)) (fun c hc => hall c (List.mem_of_mem_drop hc))
    (by simp [digits_ne_nil]; omega) (by simp) hdigits rfl
  rw [List.append_nil] at hread
  rw [positionalText, if_neg (by omega), if_neg hshort]
  refine spelledAs_of_eq hread rfl ?_
  rw [List.length_drop]
  omega

theorem spelledAs_exponent {point : ℤ} (hpoint : point = (digits s.digits).length + s.exponent) :
    SpelledAs (exponentText (digits s.digits) point) s := by
  have hall := allDigits_digits s.digits
  have htail : Literal.exponent? ('e' :: signed (point - 1)) = some (point - 1) :=
    exponent?_signed _
  cases hds : digits s.digits with
  | nil => exact absurd hds (digits_ne_nil _)
  | cons c rest =>
    have hfold : foldDigits 0 (c :: rest) = some s.digits := by rw [← hds, foldDigits_digits]
    rw [hds] at hall hpoint
    rw [List.length_cons] at hpoint
    have hone : AllDigits [c] := fun d hd => hall d (by rw [List.mem_singleton.1 hd]; simp)
    cases rest with
    | nil =>
      have hread := number?_whole hone (by simp) (by simp) hfold htail
      refine spelledAs_of_eq hread rfl ?_
      simp at hpoint
      omega
    | cons d ds =>
      have hfraction : AllDigits (d :: ds) := fun x hx => hall x (List.mem_cons_of_mem _ hx)
      have hread := number?_pointed _ hone hfraction (by simp) (by simp) hfold htail
      refine spelledAs_of_eq hread rfl ?_
      rw [hpoint]
      omega

theorem spelledAs_magnitudeText (s : Scientific) : SpelledAs (tagged.magnitudeText s) s := by
  unfold magnitudeText
  dsimp only
  split
  · by_cases hlow : ((digits s.digits).length : ℤ) + s.exponent ≤ 0
    · exact spelledAs_small hlow rfl
    · by_cases hlong : (digits s.digits).length ≤
          (((digits s.digits).length : ℤ) + s.exponent).toNat
      · exact spelledAs_whole (by omega) hlong rfl
      · exact spelledAs_between (by omega) hlong rfl
  · exact spelledAs_exponent rfl

structure Numeral (cs : List Char) : Prop where
  head : ∃ c ∈ cs.head?, c.isDigit = true
  chars : ∀ c ∈ cs, c.isDigit = true ∨ c = '.' ∨ c = 'e' ∨ c = '-'

theorem numeral_of_digits {ds rest : List Char} (hds : AllDigits ds) (hne : ds ≠ [])
    (hrest : ∀ c ∈ rest, c.isDigit = true ∨ c = '.' ∨ c = 'e' ∨ c = '-') :
    Numeral (ds ++ rest) := by
  obtain ⟨c, ds', rfl⟩ := List.exists_cons_of_ne_nil hne
  refine ⟨⟨c, rfl, hds c (by simp)⟩, fun d hd => ?_⟩
  rcases List.mem_append.1 hd with h | h
  · exact .inl (hds d h)
  · exact hrest d h

theorem signed_chars (x : ℤ) : ∀ c ∈ signed x, c.isDigit = true ∨ c = '.' ∨ c = 'e' ∨ c = '-' := by
  intro c hc
  obtain ⟨cs, hcs, -, h | h⟩ := signed_cases x
  · rw [h] at hc
    exact .inl (hcs c hc)
  · rw [h] at hc
    rcases List.mem_cons.1 hc with rfl | hmem
    · simp
    · exact .inl (hcs c hmem)

theorem numeral_positionalText {ds : List Char} (hds : AllDigits ds) (hne : ds ≠ []) (point : ℤ) :
    Numeral (tagged.positionalText ds point) := by
  unfold positionalText
  split
  · have hzero : AllDigits ['0'] := allDigits_zeros 1
    refine numeral_of_digits hzero (by simp) fun c hc => ?_
    rcases List.mem_cons.1 hc with rfl | hmem
    · simp
    · exact .inl ((allDigits_zeros _).append hds c hmem)
  · split
    · refine numeral_of_digits (hds.append (allDigits_zeros _)) (by simp [hne]) fun c hc => ?_
      simp only [tagged, if_true, List.mem_cons, List.not_mem_nil, or_false] at hc
      rcases hc with rfl | rfl <;> simp
    · refine numeral_of_digits (fun c hc => hds c (List.mem_of_mem_take hc)) (by simp [hne]; omega)
        fun c hc => ?_
      rcases List.mem_cons.1 hc with rfl | hmem
      · simp
      · exact .inl (hds c (List.mem_of_mem_drop hmem))

theorem numeral_exponentText {ds : List Char} (hds : AllDigits ds) (hne : ds ≠ []) (point : ℤ) :
    Numeral (exponentText ds point) := by
  unfold exponentText
  dsimp only
  rw [List.append_assoc]
  refine numeral_of_digits (fun c hc => hds c (List.mem_of_mem_take hc)) (by simp [hne])
    fun c hc => ?_
  rcases List.mem_append.1 hc with hmem | hmem
  · split at hmem
    · contradiction
    · rcases List.mem_cons.1 hmem with rfl | hdrop
      · simp
      · exact .inl (hds c (List.mem_of_mem_drop hdrop))
  · rcases List.mem_cons.1 hmem with rfl | hsigned
    · simp
    · exact signed_chars _ c hsigned

theorem numeral_magnitudeText (s : Scientific) : Numeral (tagged.magnitudeText s) := by
  unfold magnitudeText
  dsimp only
  split
  · exact numeral_positionalText (allDigits_digits _) (digits_ne_nil _) _
  · exact numeral_exponentText (allDigits_digits _) (digits_ne_nil _) _

end Notation

namespace Literal

theorem toLower_of_isDigit {c : Char} (hc : c.isDigit = true) : c.toLower = c := by
  simp only [Char.isDigit, Bool.and_eq_true, decide_eq_true_eq] at hc
  unfold Char.toLower
  rw [dif_neg]
  intro h
  have h1 := hc.2
  have h2 := h.1
  have : ('A'.val : UInt32) ≤ 57 := UInt32.le_trans h2 h1
  revert this
  decide

theorem read?_of_numeral {cs : List Char} (h : Notation.Numeral cs) : read? cs = number? cs := by
  obtain ⟨c, hhead, hc⟩ := h.head
  cases cs with
  | nil => contradiction
  | cons d rest =>
    obtain rfl : d = c := Option.some.inj hhead
    have hword : ∀ w : List Char, (∀ a ∈ w.head?, a.isDigit = false) → w ≠ [] →
        String.ofList ((d :: rest).map Char.toLower) ≠ String.ofList w := by
      intro w hw hne heq
      have hlist := String.ofList_injective heq
      rw [List.map_cons, toLower_of_isDigit hc] at hlist
      have := hw d (by rw [← hlist]; rfl)
      rw [hc] at this
      contradiction
    have hinf := hword "inf".toList (by simp) (by simp)
    have hinfinity := hword "infinity".toList (by simp) (by simp)
    have hnan := hword "nan".toList (by simp) (by simp)
    simp only [String.ofList_toList] at hinf hinfinity hnan
    unfold read?
    dsimp only
    rw [if_neg (by rw [not_or]; exact ⟨hinf, hinfinity⟩), if_neg hnan]

theorem splitSign_of_numeral {cs : List Char} (h : Notation.Numeral cs) (negative : Bool) :
    splitSign ((if negative then ['-'] else []) ++ cs) = (negative, cs) := by
  cases negative with
  | true => rfl
  | false =>
    obtain ⟨c, hhead, hc⟩ := h.head
    cases cs with
    | nil => contradiction
    | cons d rest =>
      obtain rfl : d = c := Option.some.inj hhead
      exact splitSign_of_isDigit hc rest

end Literal

end BlockConvert.Decimal
