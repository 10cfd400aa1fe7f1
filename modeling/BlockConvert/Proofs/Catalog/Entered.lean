import BlockConvert.Catalog
import BlockConvert.Proofs.Table.Lookup
import Mathlib.Data.List.Induction

set_option autoImplicit false

/-!
# What the tables of a catalog hold

Versions are entered one after another. Under its platform and its number stands the place of the
version that was entered last, and there a catalog has that version. The numbers of a platform are
in order.
-/

namespace BlockConvert.Catalog

variable {table : Dict (List (VersionNumber × Nat))} {loaded : List Loaded} {v : Loaded}
  {platform : String} {number : VersionNumber} {place : Nat}

def placeIn (table : Dict (List (VersionNumber × Nat))) (platform : String)
    (number : VersionNumber) : Option Nat :=
  (table.get? platform).bind (Table.get? · number)

/-- The tables of all platforms are in order, and none of them is empty. -/
def InOrder (table : Dict (List (VersionNumber × Nat))) : Prop :=
  ∀ platform numbers, table.get? platform = some numbers → Table.Sorted numbers ∧ numbers ≠ []

/-! ## One version -/

theorem get?_enter (table : Dict (List (VersionNumber × Nat))) (v : Loaded) (platform : String) :
    (enter table v).get? platform =
      if v.data.info.platform = platform then
        some (Table.insert v.data.info.number v.place ((table.get? platform).getD []))
      else table.get? platform := by
  rw [enter, Dict.get?_insert]
  split
  · rename_i h
    rw [h]
  · rfl

theorem placeIn_enter (table : Dict (List (VersionNumber × Nat))) (v : Loaded) (platform : String)
    (number : VersionNumber) :
    placeIn (enter table v) platform number =
      if v.data.info.platform = platform ∧ v.data.info.number = number then some v.place
      else placeIn table platform number := by
  rw [placeIn, get?_enter]
  by_cases hplatform : v.data.info.platform = platform
  · rw [if_pos hplatform, Option.bind_some, Table.get?_insert]
    simp only [hplatform, true_and]
    congr 1
    cases htable : table.get? platform <;> simp [placeIn, htable]
  · simp [hplatform, placeIn]

theorem InOrder.enter (h : InOrder table) (v : Loaded) : InOrder (enter table v) := by
  intro platform numbers hget
  rw [get?_enter] at hget
  split at hget
  · cases hget
    refine ⟨Table.sorted_insert _ _ ?_, fun hnil => ?_⟩
    · cases hold : table.get? platform with
      | none => exact List.Pairwise.nil
      | some old => exact (h platform old hold).1
    · have hfound := Table.get?_insert v.data.info.number v.place
        ((table.get? platform).getD []) v.data.info.number
      rw [hnil, if_pos rfl] at hfound
      contradiction
  · exact h platform numbers hget

/-! ## All versions -/

theorem enterAll_fst (table : Dict (List (VersionNumber × Nat))) (loaded : List Loaded) :
    (enterAll table loaded).1 = loaded.foldl enter table := by
  induction loaded generalizing table with
  | nil => rfl
  | cons v rest ih => exact ih (enter table v)

theorem inOrder_enterAll (loaded : List Loaded) : InOrder (enterAll ∅ loaded).1 := by
  rw [enterAll_fst]
  induction loaded using List.reverseRecOn with
  | nil => exact fun _ _ h => by cases h
  | append_singleton rest v ih =>
    rw [List.foldl_append]
    exact ih.enter v

/-- The last of the versions with one platform and number has the place. -/
theorem placeIn_enterAll (loaded : List Loaded) (platform : String) (number : VersionNumber) :
    placeIn (enterAll ∅ loaded).1 platform number =
      (loaded.reverse.find? fun v =>
        v.data.info.platform = platform ∧ v.data.info.number = number).map Loaded.place := by
  rw [enterAll_fst]
  induction loaded using List.reverseRecOn with
  | nil => rfl
  | append_singleton rest v ih =>
    rw [List.foldl_append, List.foldl_cons, List.foldl_nil, placeIn_enter, ih, List.reverse_append,
      List.reverse_singleton, List.singleton_append, List.find?_cons]
    by_cases hv : v.data.info.platform = platform ∧ v.data.info.number = number <;> simp [hv]

/-! ## Catalogs -/

variable {scripts : Scripts} {prepopulate : Bool} {entries : List (String × Option VersionData)}
  {c : Catalog}

theorem eq_of_ofEntries (h : (ofEntries scripts prepopulate entries).1 = some c) :
    c.versions = entries.filterMap Prod.snd ∧
      c.table = (enterAll ∅ (c.versions.zipIdx.map fun (v, i) => ⟨i, v⟩)).1 := by
  unfold ofEntries at h
  simp only at h
  split at h
  · contradiction
  · cases h
    exact ⟨rfl, rfl⟩

def loadedNumbers (c : Catalog) (platform : String) : Set VersionNumber :=
  {number | ∃ v ∈ c.versions, v.info.platform = platform ∧ v.info.number = number}

def Holds (c : Catalog) (place : Nat) (platform : String) (number : VersionNumber) : Prop :=
  ∃ v, c.versions[place]? = some v ∧ v.info.platform = platform ∧ v.info.number = number

theorem Holds.mem (h : c.Holds place platform number) : number ∈ c.loadedNumbers platform := by
  obtain ⟨v, hv, hplatform, hnumber⟩ := h
  exact ⟨v, List.mem_of_getElem? hv, hplatform, hnumber⟩

theorem inOrder_table (h : (ofEntries scripts prepopulate entries).1 = some c) :
    InOrder c.table := by
  rw [(eq_of_ofEntries h).2]
  exact inOrder_enterAll _

theorem holds_of_placeIn (h : (ofEntries scripts prepopulate entries).1 = some c)
    (hplace : placeIn c.table platform number = some place) :
    c.Holds place platform number := by
  rw [(eq_of_ofEntries h).2, placeIn_enterAll] at hplace
  obtain ⟨v, hfind, rfl⟩ := Option.map_eq_some_iff.1 hplace
  have hv : v.data.info.platform = platform ∧ v.data.info.number = number := by
    simpa using List.find?_some hfind
  have hmem := List.mem_reverse.1 (List.mem_of_find?_eq_some hfind)
  obtain ⟨⟨data, i⟩, hindexed, rfl⟩ := List.mem_map.1 hmem
  have hdata : c.versions[i]? = some data := List.mem_zipIdx_iff_getElem?.1 hindexed
  exact ⟨data, hdata, hv⟩

theorem placeIn_isSome_iff (h : (ofEntries scripts prepopulate entries).1 = some c) :
    (placeIn c.table platform number).isSome ↔ number ∈ c.loadedNumbers platform := by
  constructor
  · intro hsome
    obtain ⟨place, hplace⟩ := Option.isSome_iff_exists.1 hsome
    exact (holds_of_placeIn h hplace).mem
  · rintro ⟨v, hv, hplatform, hnumber⟩
    rw [(eq_of_ofEntries h).2, placeIn_enterAll, Option.isSome_map, List.find?_isSome]
    obtain ⟨i, hi⟩ := List.mem_iff_getElem?.1 hv
    refine ⟨⟨i, v⟩, List.mem_reverse.2 (List.mem_map.2 ⟨(v, i), ?_, rfl⟩), ?_⟩
    · exact List.mem_zipIdx_iff_getElem?.2 hi
    · simp [hplatform, hnumber]

end BlockConvert.Catalog
