import BlockConvert.Proofs.Decimal.Endings
import BlockConvert.Proofs.Snbt.Grammar
import BlockConvert.Proofs.Snbt.Words

set_option autoImplicit false

/-!
# Words are classified by the grammar

The reader tries the kinds of words one after another, while the grammar says of each kind which
words it has. Both agree because no word is of two kinds: what a suffix tells is no digit and no
point, and an integer has no point.
-/

namespace BlockConvert.Snbt

open Decimal (AllDigits)

variable {body word : List Char} {suffix : Char} {n : Int} {t : Tag} {bits : Nat}

/-! ## Integers -/

theorem spellsInteger_iff : SpellsInteger word n ↔ Decimal.integer? word = some n := by
  constructor
  · intro h
    have hread : ∀ {ds : List Char}, ds ≠ [] → AllDigits ds →
        Decimal.natural? ds = some (Nat.ofDigitChars 10 ds 0) := fun hne hds =>
      Decimal.natural?_eq_some.2 ⟨hne, hds, rfl⟩
    rw [Decimal.integer?_eq]
    cases h with
    | unsigned hne hds => rw [Decimal.splitSign_of_digits hds, hread hne hds]; rfl
    | plus hne hds => simp only [Decimal.splitSign, hread hne hds]; rfl
    | minus hne hds => simp only [Decimal.splitSign, hread hne hds]; rfl
  · intro h
    rw [Decimal.integer?_eq] at h
    obtain ⟨k, hk, rfl⟩ := Option.map_eq_some_iff.1 h
    obtain ⟨hne, hds, rfl⟩ := Decimal.natural?_eq_some.1 hk
    rcases Decimal.splitSign_cases word with ⟨ds, rfl, hsplit⟩ | ⟨ds, rfl, hsplit⟩ | hsplit <;>
      rw [hsplit] at hne hds ⊢
    · exact .minus hne hds
    · exact .plus hne hds
    · exact .unsigned hne hds

theorem signedIn?_eq_some {width : Nat} : Decimal.signedIn? width word = some n ↔
    SpellsInteger word n ∧ Decimal.isSigned width n = true := by
  rw [Decimal.signedIn?, Option.filter_eq_some_iff, spellsInteger_iff]

theorem SpellsInteger.looksNumeric (h : SpellsInteger word n) : looksNumeric word = true := by
  cases h with
  | unsigned hne hds =>
    obtain ⟨c, rest, rfl⟩ := List.exists_cons_of_ne_nil hne
    simp [Snbt.looksNumeric, hds c (by simp)]
  | plus hne hds => rfl
  | minus hne hds => rfl

theorem SpellsInteger.no_point (h : SpellsInteger word n) : '.' ∉ word := by
  have hdigits : ∀ {ds : List Char}, AllDigits ds → '.' ∉ ds := fun hds hmem =>
    absurd (hds '.' hmem) (by decide)
  cases h with
  | unsigned hne hds => exact hdigits hds
  | plus hne hds => simpa using hdigits hds
  | minus hne hds => simpa using hdigits hds

/-! ## Suffixes -/

theorem eq_or_eq_of_toLower {c small large : Char} (h : c.toLower = small)
    (hcase : large.toNat + 32 = small.toNat) : c = small ∨ c = large := by
  unfold Char.toLower at h
  split at h
  · rename_i hupper
    refine .inr (Char.toNat_inj.1 ?_)
    have hcode : small.toNat = c.toNat + 32 := by
      rw [← h]
      have hlow : 65 ≤ c.val.toNat := UInt32.le_iff_toNat_le.1 hupper.1
      have hhigh : c.val.toNat ≤ 90 := UInt32.le_iff_toNat_le.1 hupper.2
      show (c.val + 32).toNat = c.val.toNat + 32
      have hletters : (32 : UInt32).toNat = 32 := rfl
      rw [UInt32.toNat_add, hletters]
      exact Nat.mod_eq_of_lt (by omega)
    omega
  · exact .inl h

theorem denotesNumber_of_suffixed (h : suffixed? body suffix = some t) :
    DenotesNumber (body ++ [suffix]) t := by
  unfold suffixed? at h
  split at h
  · rename_i hsuffix
    obtain ⟨n, hn, rfl⟩ := Option.map_eq_some_iff.1 h
    obtain ⟨hbody, hrange⟩ := signedIn?_eq_some.1 hn
    exact .byte hbody hrange (eq_or_eq_of_toLower hsuffix rfl)
  · rename_i hsuffix
    obtain ⟨n, hn, rfl⟩ := Option.map_eq_some_iff.1 h
    obtain ⟨hbody, hrange⟩ := signedIn?_eq_some.1 hn
    exact .short hbody hrange (eq_or_eq_of_toLower hsuffix rfl)
  · rename_i hsuffix
    obtain ⟨n, hn, rfl⟩ := Option.map_eq_some_iff.1 h
    obtain ⟨hbody, hrange⟩ := signedIn?_eq_some.1 hn
    exact .long hbody hrange (eq_or_eq_of_toLower hsuffix rfl)
  · rename_i hsuffix
    split at h
    · rename_i hlooks
      obtain ⟨bits, hbits, rfl⟩ := Option.map_eq_some_iff.1 h
      exact .float hlooks hbits (eq_or_eq_of_toLower hsuffix rfl)
    · contradiction
  · rename_i hsuffix
    split at h
    · rename_i hlooks
      obtain ⟨bits, hbits, rfl⟩ := Option.map_eq_some_iff.1 h
      exact .double hlooks hbits (eq_or_eq_of_toLower hsuffix rfl)
    · contradiction
  · contradiction

theorem suffixed?_of_endsNumber (h : Decimal.Literal.EndsNumber word) :
    (word.getLast?.bind fun suffix => suffixed? word.dropLast suffix) = none := by
  refine Option.bind_eq_none_iff.2 fun c hc => ?_
  rcases h c hc with hdigit | rfl
  · exact suffixed?_of_isDigit hdigit _
  · rfl

theorem SpellsInteger.endsNumber (h : SpellsInteger word n) : Decimal.Literal.EndsNumber word :=
  fun c hc => .inl (Decimal.integer?_getLast? (spellsInteger_iff.1 h) c hc)

theorem number?_of_suffixed (h : suffixed? body suffix = some t) :
    number? (body ++ [suffix]) = some t := by
  rw [number?, List.getLast?_concat, List.dropLast_concat, Option.bind_some, h]
  rfl

theorem int?_eq_some : int? word = some t ↔
    ∃ n, SpellsInteger word n ∧ Decimal.isSigned 32 n = true ∧ t = .int (Int32.ofInt n) := by
  rw [int?, Option.map_eq_some_iff]
  constructor
  · rintro ⟨n, hn, rfl⟩
    obtain ⟨hword, hrange⟩ := signedIn?_eq_some.1 hn
    exact ⟨n, hword, hrange, rfl⟩
  · rintro ⟨n, hword, hrange, rfl⟩
    exact ⟨n, signedIn?_eq_some.2 ⟨hword, hrange⟩, rfl⟩

/-! ## Numbers and words -/

theorem denotesNumber_of_number? (hlooks : looksNumeric word = true) (h : number? word = some t) :
    DenotesNumber word t := by
  rw [number?, Option.orElse_eq_orElse, Option.orElse_eq_or, Option.orElse_eq_or] at h
  rcases Option.or_eq_some_iff.1 h with hsuffixed | ⟨-, h⟩
  · obtain ⟨suffix, hlast, hsuffixed⟩ := Option.bind_eq_some_iff.1 hsuffixed
    have hword := denotesNumber_of_suffixed hsuffixed
    rwa [List.dropLast_append_getLast? suffix hlast] at hword
  rcases Option.or_eq_some_iff.1 h with hint | ⟨-, hpointed⟩
  · obtain ⟨n, hword, hrange, rfl⟩ := int?_eq_some.1 hint
    exact .int hword hrange
  · unfold pointed? at hpointed
    split at hpointed
    · rename_i hpoint
      obtain ⟨bits, hbits, rfl⟩ := Option.map_eq_some_iff.1 hpointed
      exact .pointed hlooks (List.contains_iff_mem.1 hpoint) hbits
    · contradiction

theorem number?_of_integer {width : Nat} (make : Int → Tag) (hbody : SpellsInteger body n)
    (hrange : Decimal.isSigned width n = true)
    (hkind : suffixed? body suffix = (Decimal.signedIn? width body).map make) :
    looksNumeric (body ++ [suffix]) = true ∧ number? (body ++ [suffix]) = some (make n) := by
  have hlooks := hbody.looksNumeric
  have hne : body ≠ [] := by
    rintro rfl
    contradiction
  refine ⟨(looksNumeric_append hne).trans hlooks, number?_of_suffixed ?_⟩
  rw [hkind, signedIn?_eq_some.2 ⟨hbody, hrange⟩]
  rfl

theorem number?_of_floating {f : Decimal.Format} (make : Nat → Tag)
    (hlooks : looksNumeric body = true) (hbody : Decimal.floating? f body = some bits)
    (hkind : suffixed? body suffix =
      if looksNumeric body then (Decimal.floating? f body).map make else none) :
    looksNumeric (body ++ [suffix]) = true ∧ number? (body ++ [suffix]) = some (make bits) := by
  have hne : body ≠ [] := by
    rintro rfl
    contradiction
  refine ⟨(looksNumeric_append hne).trans hlooks, number?_of_suffixed ?_⟩
  rw [hkind, if_pos hlooks, hbody]
  rfl

theorem number?_of_denotesNumber (h : DenotesNumber word t) :
    looksNumeric word = true ∧ number? word = some t := by
  cases h with
  | byte hbody hrange hsuffix =>
    exact number?_of_integer (fun n => .byte (Int8.ofInt n)) hbody hrange
      (by rcases hsuffix with rfl | rfl <;> rfl)
  | short hbody hrange hsuffix =>
    exact number?_of_integer (fun n => .short (Int16.ofInt n)) hbody hrange
      (by rcases hsuffix with rfl | rfl <;> rfl)
  | long hbody hrange hsuffix =>
    exact number?_of_integer (fun n => .long (Int64.ofInt n)) hbody hrange
      (by rcases hsuffix with rfl | rfl <;> rfl)
  | float hlooks hbody hsuffix =>
    exact number?_of_floating (fun bits => .float (UInt32.ofNat bits)) hlooks hbody
      (by rcases hsuffix with rfl | rfl <;> rfl)
  | double hlooks hbody hsuffix =>
    exact number?_of_floating (fun bits => .double (UInt64.ofNat bits)) hlooks hbody
      (by rcases hsuffix with rfl | rfl <;> rfl)
  | int hword hrange =>
    refine ⟨hword.looksNumeric, ?_⟩
    rw [number?, suffixed?_of_endsNumber hword.endsNumber,
      int?_eq_some.2 ⟨_, hword, hrange, rfl⟩]
    rfl
  | pointed hlooks hpoint hword =>
    have hint : int? word = none := by
      rw [Option.eq_none_iff_forall_ne_some]
      intro t hint
      obtain ⟨n, hinteger, -, -⟩ := int?_eq_some.1 hint
      exact hinteger.no_point hpoint
    refine ⟨hlooks, ?_⟩
    rw [number?, suffixed?_of_endsNumber (Decimal.floating?_endsNumber hpoint hword), hint,
      pointed?, if_pos (List.contains_iff_mem.2 hpoint), hword]
    rfl

theorem denotesNumber_iff :
    DenotesNumber word t ↔ looksNumeric word = true ∧ number? word = some t :=
  ⟨number?_of_denotesNumber, fun h => denotesNumber_of_number? h.1 h.2⟩

theorem denotesWord_classify (word : List Char) : DenotesWord word (classify word) := by
  unfold classify
  split
  · rename_i hyes
    exact hyes ▸ .yes
  split
  · rename_i hno
    exact hno ▸ .no
  rename_i hyes hno
  split
  · rename_i hlooks
    cases hnumber : number? word with
    | some t => exact .number (denotesNumber_iff.2 ⟨hlooks, hnumber⟩)
    | none =>
      refine .text hyes hno fun t h => ?_
      rw [(denotesNumber_iff.1 h).2] at hnumber
      contradiction
  · rename_i hlooks
    exact .text hyes hno fun t h => hlooks (denotesNumber_iff.1 h).1

/-- A word denotes what it is classified as, and nothing else. -/
theorem denotesWord_iff : DenotesWord word t ↔ classify word = t := by
  constructor
  · intro h
    cases h with
    | yes => rfl
    | no => rfl
    | number h =>
      obtain ⟨hlooks, hnumber⟩ := denotesNumber_iff.1 h
      exact classify_numeric hlooks hnumber
    | text hyes hno hnumber =>
      rw [classify, if_neg hyes, if_neg hno]
      split
      · rename_i hlooks
        cases hread : number? word with
        | some t => exact absurd (denotesNumber_iff.2 ⟨hlooks, hread⟩) (hnumber t)
        | none => rfl
      · rfl
  · rintro rfl
    exact denotesWord_classify word

end BlockConvert.Snbt
