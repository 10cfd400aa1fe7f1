import BlockConvert.Text.Blank
import BlockConvert.Text.Split

set_option autoImplicit false

/-!
# Parts between brackets

Readers skip blanks, and between two brackets they take parts with commas between them. What counts
as a blank each of them says for itself.
-/

namespace BlockConvert.Text

variable {blank : Char → Bool} {c : Char} {cs text before after rest : List Char}
  {ts : List (List Char)}

def AllBlank (blank : Char → Bool) (cs : List Char) : Prop := ∀ c ∈ cs, blank c = true

theorem allBlank_nil : AllBlank blank [] := fun _ h => by cases h

theorem skip_cons (h : blank c = false) : skip blank (c :: cs) = c :: cs := by
  rw [skip, List.dropWhile_cons_of_neg (by simp [h])]

theorem skip_append (h : AllBlank blank before) (cs : List Char) :
    skip blank (before ++ cs) = skip blank cs :=
  List.dropWhile_append_of_pos h

theorem skip_skip (cs : List Char) : skip blank (skip blank cs) = skip blank cs := by
  induction cs with
  | nil => rfl
  | cons c cs ih =>
    cases hblank : blank c with
    | true =>
      have hskip : skip blank (c :: cs) = skip blank cs := List.dropWhile_cons_of_pos hblank
      rw [hskip, ih]
    | false => rw [skip_cons hblank, skip_cons hblank]

/-- What may stand in front may stand behind blanks, if blanks may. -/
theorem forall_head_append {p : Char → Prop} (hblank : ∀ c, blank c = true → p c)
    (h : AllBlank blank after) (hrest : ∀ c ∈ rest.head?, p c) :
    ∀ c ∈ (after ++ rest).head?, p c := by
  cases after with
  | nil => exact hrest
  | cons c cs =>
    intro d hd
    exact hblank d (Option.some.inj hd ▸ h c (by simp))

def Closes (c : Char) : Prop := c = ']' ∨ c = '\x7d'

theorem Closes.ne_comma (h : Closes c) : c ≠ ',' := by
  rcases h with rfl | rfl <;> decide

/-! ## Parts with commas between them -/

theorem length_le_joinWith (sep : Char) (ts : List (List Char)) :
    ts.length ≤ (joinWith sep ts).length + 1 := by
  induction ts using joinWith.induct with
  | case1 => simp
  | case2 cs => simp
  | case3 cs next rest ih =>
    simp only [joinWith, List.length_cons, List.length_append] at ih ⊢
    omega

theorem length_le_of_mem (sep : Char) (h : text ∈ ts) :
    text.length ≤ (joinWith sep ts).length := by
  induction ts using joinWith.induct with
  | case1 => simp at h
  | case2 cs => simp [List.mem_singleton.1 h, joinWith]
  | case3 cs next rest ih =>
    simp only [joinWith, List.length_cons, List.length_append]
    rcases List.mem_cons.1 h with rfl | hmem
    · omega
    · have := ih hmem
      omega

/-- What stands between two brackets: the parts with commas between them, or blanks. -/
inductive Encloses (blank : Char → Bool) : List (List Char) → List Char → Prop
  | blank {text : List Char} (h : AllBlank blank text) : Encloses blank [] text
  | parts {texts : List (List Char)} (hne : texts ≠ []) :
      Encloses blank texts (joinWith ',' texts)

theorem Encloses.length_le (h : Encloses blank ts cs) (hmem : text ∈ ts) :
    text.length ≤ cs.length := by
  cases h with
  | blank _ => contradiction
  | parts _ => exact length_le_of_mem ',' hmem

/-- Parts with commas between them stand between brackets as they are. -/
theorem encloses_joinWith (ts : List (List Char)) : Encloses blank ts (joinWith ',' ts) := by
  cases ts with
  | nil => exact .blank allBlank_nil
  | cons text more => exact .parts (List.cons_ne_nil text more)

/-- Behind its blanks the text starts, and not with a closing bracket. -/
def Opens (blank : Char → Bool) (text : List Char) : Prop :=
  ∃ c cs, skip blank text = c :: cs ∧ ¬Closes c

theorem opens_cons (hblank : blank c = false) (hcloses : ¬Closes c) : Opens blank (c :: cs) :=
  ⟨c, cs, skip_cons hblank, hcloses⟩

theorem Opens.append (h : Opens blank text) (cs : List Char) : Opens blank (text ++ cs) := by
  obtain ⟨c, rest, hskip, hcloses⟩ := h
  refine ⟨c, rest ++ cs, ?_, hcloses⟩
  rw [skip] at hskip ⊢
  rw [List.dropWhile_append, hskip]
  rfl

theorem Opens.padded (hbefore : AllBlank blank before) (h : Opens blank text)
    (after : List Char) : Opens blank (before ++ text ++ after) := by
  refine Opens.append ?_ after
  obtain ⟨c, rest, hskip, hcloses⟩ := h
  exact ⟨c, rest, (skip_append hbefore text).trans hskip, hcloses⟩

theorem opens_joinWith (hne : ts ≠ []) (h : ∀ text ∈ ts, Opens blank text) :
    Opens blank (joinWith ',' ts) := by
  match ts, hne with
  | [first], _ => exact h first (by simp)
  | first :: next :: rest, _ => exact (h first (by simp)).append _

end BlockConvert.Text
