set_option autoImplicit false

/-!
# Blank characters

The characters with the `White_Space` property, and the trimming of a text by them.
-/

namespace BlockConvert.Text

def blankRanges : List (Nat × Nat) :=
  [(0x0009, 0x000D), (0x0020, 0x0020), (0x0085, 0x0085), (0x00A0, 0x00A0), (0x1680, 0x1680),
   (0x2000, 0x200A), (0x2028, 0x2029), (0x202F, 0x202F), (0x205F, 0x205F), (0x3000, 0x3000)]

def inRanges (ranges : List (Nat × Nat)) (c : Char) : Bool :=
  ranges.any fun r => decide (r.1 ≤ c.toNat ∧ c.toNat ≤ r.2)

def isBlank (c : Char) : Bool := inRanges blankRanges c

/-- The text without what counts as blank in front. -/
def skip (blank : Char → Bool) (cs : List Char) : List Char := cs.dropWhile blank

def trimLeft (cs : List Char) : List Char := cs.dropWhile isBlank

def trimRight (cs : List Char) : List Char := (cs.reverse.dropWhile isBlank).reverse

def trim (cs : List Char) : List Char := trimRight (trimLeft cs)

theorem trimLeft_eq_self_iff {cs : List Char} :
    trimLeft cs = cs ↔ ∀ c ∈ cs.head?, isBlank c = false := by
  cases cs with
  | nil => simp [trimLeft]
  | cons c rest =>
    cases hblank : isBlank c with
    | false => simp [trimLeft, hblank]
    | true =>
      have hshort : (rest.dropWhile isBlank).length ≤ rest.length :=
        (List.dropWhile_sublist isBlank).length_le
      have hne : rest.dropWhile isBlank ≠ c :: rest := fun h => by
        rw [h, List.length_cons] at hshort
        omega
      simp [trimLeft, hblank, hne]

theorem trimLeft_append_cons {c : Char} (h : isBlank c = false) (before after : List Char) :
    trimLeft (before ++ c :: after) = trimLeft before ++ c :: after := by
  rw [trimLeft, List.dropWhile_append, List.dropWhile_cons_of_neg (by simp [h])]
  cases hrest : before.dropWhile isBlank <;> simp [trimLeft, hrest]

theorem trimRight_of_last {cs : List Char} (h : ∀ c ∈ cs.getLast?, isBlank c = false) :
    trimRight cs = cs := by
  have hreverse : trimLeft cs.reverse = cs.reverse :=
    trimLeft_eq_self_iff.2 (by rwa [List.head?_reverse])
  rw [trimRight, ← trimLeft, hreverse, List.reverse_reverse]

theorem trim_of_ends {cs : List Char} (hhead : ∀ c ∈ cs.head?, isBlank c = false)
    (hlast : ∀ c ∈ cs.getLast?, isBlank c = false) : trim cs = cs := by
  rw [trim, trimLeft_eq_self_iff.2 hhead, trimRight_of_last hlast]

end BlockConvert.Text
