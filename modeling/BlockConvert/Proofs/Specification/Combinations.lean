import BlockConvert.Proofs.Table.Lookup
import BlockConvert.Proofs.Table.Overwriting
import BlockConvert.Specification
import Mathlib.Algebra.BigOperators.Ring.List
import Mathlib.Algebra.GroupWithZero.Nat
import Mathlib.Data.List.Forall2
import Mathlib.Data.List.Nodup

set_option autoImplicit false

/-!
# Choices of property values

The combinations of a specification are the product of its lists of values: each choice of one value
for each property once for every way to make it, in lexicographic order of the positions at which
the values stand, the last property varying fastest.
-/

namespace BlockConvert.Specification

variable {es : List (String × List Tag)} {c : List (String × Tag)} {p : List Nat}

/-- Every choice as a list of entries, the first property varying slowest. -/
def choices : List (String × List Tag) → List (List (String × Tag))
  | [] => [[]]
  | (key, values) :: rest => values.flatMap fun v => (choices rest).map ((key, v) :: ·)

def positions : List (String × List Tag) → List (List Nat)
  | [] => [[]]
  | (_, values) :: rest => (List.range values.length).flatMap fun i => (positions rest).map (i :: ·)

/-- The choice has for each property the value at the given position of its list. -/
inductive Picks : List (String × List Tag) → List Nat → List (String × Tag) → Prop
  | nil : Picks [] [] []
  | cons {key : String} {values : List Tag} {i : Nat} {v : Tag} {es : List (String × List Tag)}
      {p : List Nat} {c : List (String × Tag)} (hvalue : values[i]? = some v) (h : Picks es p c) :
      Picks ((key, values) :: es) (i :: p) ((key, v) :: c)

/-! ## Choices -/

theorem mem_choices :
    c ∈ choices es ↔ List.Forall₂ (fun e d => e.1 = d.1 ∧ d.2 ∈ e.2) es c := by
  induction es generalizing c with
  | nil => simp [choices]
  | cons e rest ih =>
    obtain ⟨key, values⟩ := e
    simp only [choices, List.mem_flatMap, List.mem_map, ih, List.forall₂_cons_left_iff]
    constructor
    · rintro ⟨v, hv, d, hd, rfl⟩
      exact ⟨(key, v), d, ⟨rfl, hv⟩, hd, rfl⟩
    · rintro ⟨⟨_, v⟩, d, ⟨rfl, hv⟩, hd, rfl⟩
      exact ⟨v, hv, d, hd, rfl⟩

theorem length_choices (es : List (String × List Tag)) :
    (choices es).length = (es.map fun e => e.2.length).prod := by
  induction es with
  | nil => rfl
  | cons e rest ih =>
    simp only [choices, List.length_flatMap, List.length_map, ih]
    rw [List.map_const', List.sum_replicate_nat, List.map_cons, List.prod_cons]

theorem keys_of_mem_choices (h : c ∈ choices es) : c.map Prod.fst = es.map Prod.fst :=
  (Table.keys_eq ((mem_choices.1 h).imp fun _ _ hentry => hentry.1)).symm

theorem choices_nodup (h : ∀ e ∈ es, e.2.Nodup) : (choices es).Nodup := by
  induction es with
  | nil => exact List.nodup_singleton _
  | cons e rest ih =>
    refine List.nodup_flatMap.2 ⟨fun v _ => ?_, (h e (by simp)).imp fun {v w} hne => ?_⟩
    · exact (ih fun d hd => h d (List.mem_cons_of_mem _ hd)).map fun _ _ heq =>
        (List.cons.inj heq).2
    · intro c hv hw
      obtain ⟨_, -, rfl⟩ := List.mem_map.1 hv
      obtain ⟨_, -, heq⟩ := List.mem_map.1 hw
      exact hne (Prod.mk.inj (List.cons.inj heq).1).2.symm

/-! ## Positions -/

theorem positions_increasing (es : List (String × List Tag)) :
    (positions es).Pairwise (· < ·) := by
  induction es with
  | nil => exact List.pairwise_singleton _ _
  | cons e rest ih =>
    refine List.pairwise_flatMap.2 ⟨fun i _ => ?_, List.pairwise_lt_range.imp fun {i j} hlt => ?_⟩
    · exact List.pairwise_map.2 (ih.imp fun hpq => List.cons_lt_cons_self.2 hpq)
    · rintro _ hp _ hq
      obtain ⟨p, -, rfl⟩ := List.mem_map.1 hp
      obtain ⟨q, -, rfl⟩ := List.mem_map.1 hq
      exact List.Lex.rel hlt

theorem picks_choices (es : List (String × List Tag)) :
    List.Forall₂ (Picks es) (positions es) (choices es) := by
  induction es with
  | nil => exact .cons .nil .nil
  | cons e rest ih =>
    obtain ⟨key, values⟩ := e
    have hvalues :
        List.Forall₂ (fun i v => values[i]? = some v) (List.range values.length) values :=
      List.forall₂_iff_get.2 ⟨List.length_range, fun i _ h => by simp⟩
    refine List.rel_flatMap hvalues fun i v hvalue => ?_
    refine List.forall₂_map_left_iff.2 (List.forall₂_map_right_iff.2 ?_)
    exact ih.imp fun _ _ hpick => .cons hvalue hpick

/-! ## Combinations -/

theorem foldl_extendBy (es : List (String × List Tag)) (ms : List Properties) :
    es.foldl (fun choices e => extendBy e.1 e.2 choices) ms =
      ms.flatMap fun m => (choices es).map m.extend := by
  induction es generalizing ms with
  | nil => exact (List.flatMap_singleton' ms).symm
  | cons e rest ih =>
    obtain ⟨key, values⟩ := e
    have hextend : ∀ (m : Properties) v c, m.extend ((key, v) :: c) = (m.insert key v).extend c :=
      fun _ _ _ => rfl
    rw [List.foldl_cons, ih]
    simp only [extendBy, choices, List.flatMap_assoc, List.flatMap_map, List.map_flatMap,
      List.map_map, Function.comp_def, hextend]

theorem entries_extend (hc : c ∈ choices es) (hsorted : Table.Sorted es) :
    ((∅ : Properties).extend c).entries = c :=
  Table.ofEntries_of_sorted (Table.sorted_of_keys (keys_of_mem_choices hc) hsorted)

theorem entries_combinations (s : Specification) :
    s.combinations.map Dict.entries = choices s.valid.entries := by
  rw [combinations, foldl_extendBy, List.flatMap_singleton, List.map_map]
  refine (List.map_congr_left fun c hc => ?_).trans (List.map_id _)
  exact entries_extend hc s.valid.sorted

/-- Two lists of entries with the same keys agree entry by entry if they do so key by key. -/
theorem forall₂_of_keys (hkeys : c.map Prod.fst = es.map Prod.fst)
    (h : ∀ e ∈ es, ∀ d ∈ c, e.1 = d.1 → d.2 ∈ e.2) :
    List.Forall₂ (fun e d => e.1 = d.1 ∧ d.2 ∈ e.2) es c := by
  induction es generalizing c with
  | nil =>
    rw [List.map_eq_nil_iff.1 hkeys]
    exact .nil
  | cons e rest ih =>
    obtain ⟨d, cs, rfl, hkey, hrest⟩ := List.map_eq_cons_iff.1 hkeys
    refine .cons ⟨hkey.symm, h e (by simp) d (by simp) hkey.symm⟩ (ih hrest fun e' he d' hd => ?_)
    exact h e' (List.mem_cons_of_mem _ he) d' (List.mem_cons_of_mem _ hd)

theorem mem_combinations {s : Specification} {m : Properties} :
    m ∈ s.combinations ↔ m.keys = s.valid.keys ∧
      ∀ key v, m.get? key = some v → ∃ values, s.valid.get? key = some values ∧ v ∈ values := by
  have hmem : m ∈ s.combinations ↔ m.entries ∈ choices s.valid.entries := by
    rw [← entries_combinations, List.mem_map]
    exact ⟨fun h => ⟨m, h, rfl⟩, fun ⟨_, h, heq⟩ => Dict.eq_of_entries heq ▸ h⟩
  rw [hmem]
  constructor
  · intro hchoice
    refine ⟨keys_of_mem_choices hchoice, fun key v hget => ?_⟩
    obtain ⟨i, hi, hentry⟩ := List.mem_iff_getElem.1 (Table.mem_of_get?_eq_some hget)
    have hpairs := mem_choices.1 hchoice
    have hi' : i < s.valid.entries.length := hpairs.length_eq ▸ hi
    have hpair := hpairs.get hi' hi
    rw [List.get_eq_getElem, List.get_eq_getElem, hentry] at hpair
    have hdeclared : (s.valid.entries[i].1, s.valid.entries[i].2) ∈ s.valid.entries :=
      List.getElem_mem hi'
    exact ⟨s.valid.entries[i].2, Dict.get?_of_mem (hpair.1 ▸ hdeclared), hpair.2⟩
  · rintro ⟨hkeys, hvalues⟩
    refine mem_choices.2 (forall₂_of_keys hkeys ?_)
    rintro ⟨key, values⟩ he ⟨_, v⟩ hd rfl
    obtain ⟨values', hvalid, hv⟩ := hvalues key v (Dict.get?_of_mem hd)
    rw [Dict.get?_of_mem he] at hvalid
    cases hvalid
    exact hv

structure IsProduct (valid : Dict (List Tag)) (ms : List Properties) : Prop where
  /-- A choice has exactly the properties that are declared, each with one of its values. -/
  mem : ∀ m, m ∈ ms ↔ m.keys = valid.keys ∧
    ∀ key v, m.get? key = some v → ∃ values, valid.get? key = some values ∧ v ∈ values
  length : ms.length = (valid.entries.map fun e => e.2.length).prod
  /-- There is one choice, without properties, if none is declared. -/
  unit : valid.entries = [] → ms = [∅]
  /-- There is no choice if a property has no values. -/
  none : (∃ e ∈ valid.entries, e.2 = []) → ms = []
  /-- The positions of the values, property by property, increase lexicographically. -/
  order : ∃ ps : List (List Nat), ps.Pairwise (· < ·) ∧
    List.Forall₂ (fun p m => Picks valid.entries p m.entries) ps ms
  nodup : (∀ e ∈ valid.entries, e.2.Nodup) → ms.Nodup

theorem combinations_isProduct (s : Specification) : IsProduct s.valid s.combinations := by
  have hentries := entries_combinations s
  have hlength : s.combinations.length = (s.valid.entries.map fun e => e.2.length).prod := by
    rw [← length_choices, ← hentries, List.length_map]
  exact {
    mem := fun _ => mem_combinations
    length := hlength
    unit := fun hnone => by rw [combinations, hnone, List.foldl_nil]
    none := fun ⟨e, he, hempty⟩ => by
      have hzero : 0 ∈ s.valid.entries.map fun e => e.2.length :=
        List.mem_map.2 ⟨e, he, by rw [hempty, List.length_nil]⟩
      rw [← List.length_eq_zero_iff, hlength]
      exact List.prod_eq_zero hzero
    order := by
      refine ⟨positions s.valid.entries, positions_increasing _, ?_⟩
      have hpicks := picks_choices s.valid.entries
      rw [← hentries] at hpicks
      exact List.forall₂_map_right_iff.1 hpicks
    nodup := fun h => List.Nodup.of_map Dict.entries (hentries ▸ choices_nodup h) }

end BlockConvert.Specification
