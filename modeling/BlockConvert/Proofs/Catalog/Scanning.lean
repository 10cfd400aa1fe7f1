import BlockConvert.Catalog
import Mathlib.Data.List.Induction
import Mathlib.Order.Lattice

set_option autoImplicit false

/-!
# Scans that keep a candidate

A scan goes through a list once and keeps a candidate, which a later element may replace. If
elements replace exactly those that are behind them in some order, the scan ends with the first one
in that order. The searches for a data version and for the universal version are such scans.
-/

namespace BlockConvert

namespace Resolution

variable {α β κ : Type} {replaces : α → α → Bool} {values : List α} {v : α}

/-- Goes through a list and keeps a candidate, which a later element may replace. -/
def scan (replaces : α → α → Bool) (values : List α) : Option α :=
  values.foldl (fun best v => if best.all (replaces v) then some v else best) none

theorem scan_concat (replaces : α → α → Bool) (values : List α) (v : α) :
    scan replaces (values ++ [v]) =
      if (scan replaces values).all (replaces v) then some v else scan replaces values := by
  rw [scan, List.foldl_append]
  rfl

theorem eq_nil_of_scan (h : scan replaces values = none) : values = [] := by
  induction values using List.reverseRecOn with
  | nil => rfl
  | append_singleton rest v ih =>
    rw [scan_concat] at h
    split at h
    · contradiction
    · rename_i hkept
      simp [h] at hkept

/-- The candidate at the end is an element of the list that no other comes before. The induction is
on the list from its end, as the scan meets it. -/
theorem scan_least [LinearOrder κ] (key : α → κ)
    (hreplaces : values.Pairwise fun a b => replaces b a = true ↔ key b < key a)
    (h : scan replaces values = some v) : v ∈ values ∧ ∀ w ∈ values, key v ≤ key w := by
  induction values using List.reverseRecOn generalizing v with
  | nil => contradiction
  | append_singleton rest x ih =>
    obtain ⟨hrest, -, hx⟩ := List.pairwise_append.1 hreplaces
    rw [scan_concat] at h
    cases hbest : scan replaces rest with
    | none =>
      have hnil := eq_nil_of_scan hbest
      rw [hbest] at h
      obtain rfl : x = v := by simpa using h
      simp [hnil]
    | some best =>
      obtain ⟨hmem, hleast⟩ := ih hrest hbest
      have hiff : replaces x best = true ↔ key x < key best := hx best hmem x (by simp)
      rw [hbest, Option.all_some] at h
      split at h
      · rename_i hreplaced
        obtain rfl : x = v := Option.some.inj h
        have hlt : key x < key best := hiff.1 hreplaced
        refine ⟨by simp, fun w hw => ?_⟩
        rcases List.mem_append.1 hw with hw | hw
        · exact hlt.le.trans (hleast w hw)
        · rw [List.mem_singleton.1 hw]
      · rename_i hkept
        obtain rfl : best = v := Option.some.inj h
        have hle : key best ≤ key x := not_lt.1 fun hlt => hkept (hiff.2 hlt)
        refine ⟨List.mem_append_left _ hmem, fun w hw => ?_⟩
        rcases List.mem_append.1 hw with hw | hw
        · exact hleast w hw
        · rwa [List.mem_singleton.1 hw]

theorem scan_map (replaces : β → β → Bool) (f : α → β) (values : List α) :
    scan replaces (values.map f) = (scan (fun v w => replaces (f v) (f w)) values).map f := by
  induction values using List.reverseRecOn with
  | nil => rfl
  | append_singleton rest v ih =>
    rw [List.map_append, List.map_singleton, scan_concat, scan_concat, ih]
    cases scan (fun v w => replaces (f v) (f w)) rest with
    | none => rfl
    | some best =>
      simp only [Option.map_some, Option.all_some]
      split <;> rfl

theorem getLast?_eq_scan (values : List α) : values.getLast? = scan (fun _ _ => true) values := by
  induction values using List.reverseRecOn with
  | nil => rfl
  | append_singleton rest v _ =>
    rw [scan_concat, List.getLast?_concat]
    cases scan (fun _ _ => true) rest <;> rfl

theorem firstLeast_eq_scan (measure : α → Int) (values : List α) :
    firstLeast measure values = scan (fun v best => measure v < measure best) values := rfl

theorem lastGreatest_eq_scan (measure : α → Int) (values : List α) :
    lastGreatest measure values = scan (fun v best => measure best ≤ measure v) values := rfl

end Resolution

end BlockConvert
