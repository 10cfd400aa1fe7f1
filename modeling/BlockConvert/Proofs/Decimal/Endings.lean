import BlockConvert.Decimal.Reader
import BlockConvert.Proofs.Decimal.Digits

set_option autoImplicit false

/-!
# How number literals end

An integer ends with a digit. A floating point literal with a point ends with a digit or with the
point, so no literal with a point goes on with a letter after a shorter one.
-/

namespace BlockConvert.Decimal

variable {cs ds : List Char}

theorem AllDigits.getLast? (h : AllDigits cs) : ∀ c ∈ cs.getLast?, c.isDigit = true :=
  fun c hc => h c (List.mem_of_getLast? hc)

/-- What is left after an optional sign. -/
theorem splitSign_cases (cs : List Char) :
    (∃ rest, cs = '-' :: rest ∧ splitSign cs = (true, rest)) ∨
      (∃ rest, cs = '+' :: rest ∧ splitSign cs = (false, rest)) ∨ splitSign cs = (false, cs) := by
  unfold splitSign
  split
  · exact .inl ⟨_, rfl, rfl⟩
  · exact .inr (.inl ⟨_, rfl, rfl⟩)
  · exact .inr (.inr rfl)

/-- A sign may be taken off the front without a change of the end. -/
theorem getLast?_splitSign (hne : (splitSign cs).2 ≠ []) :
    (splitSign cs).2.getLast? = cs.getLast? := by
  rcases splitSign_cases cs with ⟨rest, rfl, h⟩ | ⟨rest, rfl, h⟩ | h <;> rw [h] at hne ⊢
  · exact (List.getLast?_cons_of_ne_nil hne).symm
  · exact (List.getLast?_cons_of_ne_nil hne).symm

theorem integer?_eq (cs : List Char) :
    integer? cs = (natural? (splitSign cs).2).map fun n : Nat =>
      if (splitSign cs).1 then -(n : Int) else (n : Int) := by
  unfold integer?
  dsimp only
  cases natural? (splitSign cs).2 <;> rfl

theorem integer?_getLast? {n : Int} (h : integer? cs = some n) :
    ∀ c ∈ cs.getLast?, c.isDigit = true := by
  rw [integer?_eq] at h
  obtain ⟨k, hk, -⟩ := Option.map_eq_some_iff.1 h
  obtain ⟨hne, hdigits, -⟩ := natural?_eq_some.1 hk
  rw [← getLast?_splitSign hne]
  exact hdigits.getLast?

namespace Literal

def EndsNumber (cs : List Char) : Prop := ∀ c ∈ cs.getLast?, c.isDigit = true ∨ c = '.'

theorem AllDigits.endsNumber (h : AllDigits cs) : EndsNumber cs :=
  fun c hc => .inl (h.getLast? c hc)

theorem EndsNumber.append (hcs : EndsNumber cs) (hds : EndsNumber ds) : EndsNumber (cs ++ ds) := by
  intro c hc
  rw [List.getLast?_append] at hc
  cases h : ds.getLast? with
  | none =>
    rw [h] at hc
    exact hcs c hc
  | some d =>
    rw [h] at hc
    exact hds c (h ▸ hc)

theorem allDigits_takeWhile (cs : List Char) : AllDigits (cs.takeWhile Char.isDigit) :=
  List.all_eq_true.1 (List.all_takeWhile (p := Char.isDigit) (l := cs))

theorem exponent?_endsNumber {x : Int} (h : exponent? cs = some x) : EndsNumber cs := by
  cases cs with
  | nil => exact fun _ hc => by cases hc
  | cons c rest =>
    rw [exponent?] at h
    split at h
    · intro d hd
      cases rest with
      | nil => cases h
      | cons e more =>
        rw [List.getLast?_cons_of_ne_nil (List.cons_ne_nil e more)] at hd
        exact .inl (integer?_getLast? h d hd)
    · contradiction

/-- A number is read only with an exponent, or nothing, at its end. -/
theorem exponent?_isSome_of_parts {whole fraction tail : List Char} {l : Literal}
    (h : (if whole.isEmpty && fraction.isEmpty then none else do
      let digits ← foldDigits 0 (whole ++ fraction)
      let exponent ← exponent? tail
      return .number digits (exponent - fraction.length)) = some l) :
    ∃ x, exponent? tail = some x := by
  split at h
  · contradiction
  · obtain ⟨digits, -, h⟩ := Option.bind_eq_some_iff.1 h
    obtain ⟨x, hexponent, -⟩ := Option.bind_eq_some_iff.1 h
    exact ⟨x, hexponent⟩

theorem number?_endsNumber {l : Literal} (h : number? cs = some l) : EndsNumber cs := by
  unfold number? at h
  dsimp only at h
  rw [← List.takeWhile_append_dropWhile (p := Char.isDigit) (l := cs)]
  refine (AllDigits.endsNumber (allDigits_takeWhile cs)).append ?_
  split at h
  · rename_i after hrest
    obtain ⟨x, hexponent⟩ := exponent?_isSome_of_parts h
    have hpoint : EndsNumber ['.'] := fun c hc => .inr (by simpa using hc.symm)
    have hfraction := AllDigits.endsNumber (allDigits_takeWhile after)
    rw [hrest, ← List.takeWhile_append_dropWhile (p := Char.isDigit) (l := after)]
    exact hpoint.append (hfraction.append (exponent?_endsNumber hexponent))
  · obtain ⟨x, hexponent⟩ := exponent?_isSome_of_parts h
    exact exponent?_endsNumber hexponent

/-- The words for infinity and for what is no number have no point. -/
theorem read?_eq_number? (hpoint : '.' ∈ cs) : read? cs = number? cs := by
  have hword : ∀ w : List Char, '.' ∉ w → String.ofList (cs.map Char.toLower) ≠ String.ofList w := by
    intro w hw heq
    have hlist := String.ofList_injective heq
    exact hw (hlist ▸ List.mem_map.2 ⟨'.', hpoint, rfl⟩)
  have hinf := hword "inf".toList (by decide)
  have hinfinity := hword "infinity".toList (by decide)
  have hnan := hword "nan".toList (by decide)
  simp only [String.ofList_toList] at hinf hinfinity hnan
  unfold read?
  dsimp only
  rw [if_neg (by rw [not_or]; exact ⟨hinf, hinfinity⟩), if_neg hnan]

end Literal

theorem floating?_eq (f : Format) (cs : List Char) :
    floating? f cs = (Literal.read? (splitSign cs).2).map (Literal.bits f (splitSign cs).1) := rfl

theorem floating?_endsNumber {f : Format} {bits : Nat} (hpoint : '.' ∈ cs)
    (h : floating? f cs = some bits) : Literal.EndsNumber cs := by
  rw [floating?_eq] at h
  obtain ⟨l, hl, -⟩ := Option.map_eq_some_iff.1 h
  have hmem : '.' ∈ (splitSign cs).2 := by
    rcases splitSign_cases cs with ⟨rest, rfl, heq⟩ | ⟨rest, rfl, heq⟩ | heq <;> rw [heq]
    · simpa using hpoint
    · simpa using hpoint
    · exact hpoint
  rw [Literal.read?_eq_number? hmem] at hl
  intro c hc
  rw [← getLast?_splitSign (List.ne_nil_of_mem hmem)] at hc
  exact Literal.number?_endsNumber hl c hc

end BlockConvert.Decimal
