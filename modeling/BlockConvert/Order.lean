set_option autoImplicit false

/-!
# Key orders

A table keeps its keys in one strict total order, so that two tables with the same content are the
same table. Texts are ordered by code point; number sequences are ordered lexicographically.
-/

namespace BlockConvert

/-- A decidable strict total order on keys. -/
class KeyOrder (κ : Type) [DecidableEq κ] where
  before : κ → κ → Bool
  before_irrefl : ∀ a, before a a = false
  before_trans : ∀ {a b c}, before a b = true → before b c = true → before a c = true
  before_total : ∀ a b, before a b = true ∨ a = b ∨ before b a = true

namespace KeyOrder

variable {κ : Type} [DecidableEq κ] [KeyOrder κ]

theorem ne_of_before {a b : κ} (h : before a b = true) : a ≠ b := by
  rintro rfl
  simp [before_irrefl] at h

theorem before_asymm {a b : κ} (h : before a b = true) : before b a = false := by
  cases hb : before b a with
  | false => rfl
  | true => simpa [before_irrefl] using before_trans h hb

instance : KeyOrder String where
  before a b := decide (a < b)
  before_irrefl a := by simp
  before_trans h k := by
    simp only [decide_eq_true_eq] at *
    exact String.lt_trans h k
  before_total a b := by
    simp only [decide_eq_true_eq]
    rcases Classical.em (a < b) with h | h
    · exact .inl h
    · rcases Classical.em (b < a) with k | k
      · exact .inr (.inr k)
      · exact .inr (.inl (String.le_antisymm (String.not_lt.1 k) (String.not_lt.1 h)))

instance : KeyOrder (List Nat) where
  before a b := decide (a < b)
  before_irrefl a := decide_eq_false (List.lt_irrefl a)
  before_trans h k := by
    simp only [decide_eq_true_eq] at *
    exact List.lt_trans h k
  before_total a b := by
    simp only [decide_eq_true_eq]
    rcases Classical.em (a < b) with h | h
    · exact .inl h
    · rcases Classical.em (b < a) with k | k
      · exact .inr (.inr k)
      · exact .inr (.inl (List.le_antisymm (List.not_lt.1 k) (List.not_lt.1 h)))

/-- The order that keys take from a faithful picture of them in another ordered type. -/
@[reducible]
def lift {ι : Type} [DecidableEq ι] (f : ι → κ) (inj : ∀ {a b}, f a = f b → a = b) :
    KeyOrder ι where
  before a b := before (f a) (f b)
  before_irrefl a := before_irrefl (f a)
  before_trans h k := before_trans h k
  before_total a b := by
    rcases before_total (f a) (f b) with h | h | h
    · exact .inl h
    · exact .inr (.inl (inj h))
    · exact .inr (.inr h)

end KeyOrder

end BlockConvert
