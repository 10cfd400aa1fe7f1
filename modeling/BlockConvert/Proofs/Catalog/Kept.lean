import BlockConvert.Proofs.Catalog.Nearest
import BlockConvert.Proofs.Catalog.Scanning
import Mathlib.Data.Prod.Lex

set_option autoImplicit false

/-!
# The versions that a catalog keeps

Of the versions of a platform with one number a catalog keeps the one that was loaded last: its
place is the greatest at which there is such a version, and it is the place in the tables. The
universal version is found before there are tables, and is the one that they have under the greatest
universal number.
-/

namespace BlockConvert.Catalog

variable {scripts : Scripts} {prepopulate : Bool} {entries : List (String × Option VersionData)}
  {c : Catalog} {platform : String} {number : VersionNumber} {place other : Nat}

/-! ## Places -/

def placed (versions : List VersionData) : List Loaded :=
  versions.zipIdx.map fun (v, i) => ⟨i, v⟩

theorem mem_placed {versions : List VersionData} {v : Loaded} :
    v ∈ placed versions ↔ versions[v.place]? = some v.data := by
  rw [placed, List.mem_map]
  constructor
  · rintro ⟨⟨w, i⟩, he, rfl⟩
    exact List.mem_zipIdx_iff_getElem?.1 he
  · exact fun h => ⟨(v.data, v.place), List.mem_zipIdx_iff_getElem?.2 h, rfl⟩

theorem placed_pairwise (versions : List VersionData) :
    (placed versions).Pairwise fun a b => a.place < b.place := by
  rw [placed, List.pairwise_map, List.pairwise_iff_getElem]
  intro i j _ _ hij
  simpa using hij

/-- A catalog holds the versions that could be loaded, tables of their places, and the place of the
universal one. -/
theorem ofEntries_eq (scripts : Scripts) (prepopulate : Bool)
    (entries : List (String × Option VersionData)) :
    (ofEntries scripts prepopulate entries).1 =
      let versions := entries.filterMap Prod.snd
      (universalPlace (placed versions)).map fun universal =>
        ⟨scripts, prepopulate, versions, (enterAll ∅ (placed versions)).1, universal⟩ := by
  unfold ofEntries
  dsimp only
  split
  · rename_i h
    rw [placed, h]
    rfl
  · rename_i universal h
    rw [placed, h]
    rfl

/-- At the place the catalog has the version of the platform with the number that was loaded
last. -/
def Keeps (c : Catalog) (place : Nat) (platform : String) (number : VersionNumber) : Prop :=
  IsGreatest {i | c.Holds i platform number} place

theorem Keeps.holds (h : c.Keeps place platform number) : c.Holds place platform number := h.1

theorem Keeps.unique (h : c.Keeps place platform number) (h' : c.Keeps other platform number) :
    place = other := IsGreatest.unique h h'

theorem keeps_of_placeIn (h : (ofEntries scripts prepopulate entries).1 = some c)
    (hplace : placeIn c.table platform number = some place) :
    c.Keeps place platform number := by
  refine ⟨holds_of_placeIn h hplace, ?_⟩
  rintro i ⟨v, hv, hplatform, hnumber⟩
  rw [(eq_of_ofEntries h).2, placeIn_enterAll] at hplace
  obtain ⟨last, hfind, rfl⟩ := Option.map_eq_some_iff.1 hplace
  have hmem : (⟨i, v⟩ : Loaded) ∈ (placed c.versions).reverse :=
    List.mem_reverse.2 (mem_placed.2 hv)
  have hpairwise := List.pairwise_reverse.2 (placed_pairwise c.versions)
  rcases Resolution.related_of_find? hpairwise hfind hmem (by simp [hplatform, hnumber])
    with rfl | hlt
  · exact Nat.le_refl _
  · exact Nat.le_of_lt hlt

theorem placeIn_eq_some_iff (h : (ofEntries scripts prepopulate entries).1 = some c) :
    placeIn c.table platform number = some place ↔ c.Keeps place platform number := by
  refine ⟨keeps_of_placeIn h, fun hkeeps => ?_⟩
  have hloaded : (placeIn c.table platform number).isSome :=
    (placeIn_isSome_iff h).2 hkeeps.holds.mem
  obtain ⟨found, hfound⟩ := Option.isSome_iff_exists.1 hloaded
  rw [hfound, (keeps_of_placeIn h hfound).unique hkeeps]

/-! ## The universal version -/

def isUniversal (v : Loaded) : Bool := v.data.info.platform = universalPlatform

def supersedes (v best : Loaded) : Bool :=
  !KeyOrder.before v.data.info.number best.data.info.number

theorem universalPlace_eq_scan (loaded : List Loaded) : universalPlace loaded =
    (Resolution.scan supersedes (loaded.filter isUniversal)).map Loaded.place := by
  rw [universalPlace, Resolution.scan, List.foldl_filter]
  congr 2
  funext best v
  by_cases hv : v.data.info.platform = universalPlatform
  · cases best with
    | none => simp [isUniversal, hv]
    | some b => cases hb : KeyOrder.before v.data.info.number b.data.info.number <;>
        simp [isUniversal, supersedes, hv, hb]
  · simp [isUniversal, hv]

theorem universalPlace_eq_none_iff (loaded : List Loaded) :
    universalPlace loaded = none ↔
      ∀ v ∈ loaded, v.data.info.platform ≠ universalPlatform := by
  rw [universalPlace_eq_scan, Option.map_eq_none_iff]
  constructor
  · intro h v hv hplatform
    have hmem : v ∈ loaded.filter isUniversal :=
      List.mem_filter.2 ⟨hv, by simp [isUniversal, hplatform]⟩
    rw [Resolution.eq_nil_of_scan h] at hmem
    contradiction
  · intro h
    have hnil : loaded.filter isUniversal = [] :=
      List.filter_eq_nil_iff.2 fun v hv => by simpa [isUniversal] using h v hv
    rw [hnil]
    rfl

/-- The universal version has the greatest universal number, and of those with this number it was
loaded last. -/
theorem universalPlace_greatest {loaded : List Loaded}
    (hloaded : loaded.Pairwise fun a b => a.place < b.place)
    (h : universalPlace loaded = some place) :
    ∃ v ∈ loaded, v.data.info.platform = universalPlatform ∧ v.place = place ∧
      ∀ w ∈ loaded, w.data.info.platform = universalPlatform →
        toLex (w.data.info.number, w.place) ≤ toLex (v.data.info.number, v.place) := by
  rw [universalPlace_eq_scan] at h
  obtain ⟨v, hscan, rfl⟩ := Option.map_eq_some_iff.1 h
  have hreplaces : (loaded.filter isUniversal).Pairwise fun a b => supersedes b a = true ↔
      OrderDual.toDual (toLex (b.data.info.number, b.place)) <
        OrderDual.toDual (toLex (a.data.info.number, a.place)) := by
    refine (hloaded.filter isUniversal).imp fun {a b} hab => ?_
    rw [OrderDual.toDual_lt_toDual, Prod.Lex.toLex_lt_toLex, supersedes, Bool.not_eq_true',
      ← Bool.not_eq_true, VersionNumber.before_iff_lt, not_lt, le_iff_lt_or_eq]
    simp [hab]
  obtain ⟨hmem, hgreatest⟩ := Resolution.scan_least _ hreplaces hscan
  obtain ⟨hv, huniversal⟩ := List.mem_filter.1 hmem
  refine ⟨v, hv, by simpa [isUniversal] using huniversal, rfl, fun w hw hplatform => ?_⟩
  exact hgreatest w (List.mem_filter.2 ⟨hw, by simp [isUniversal, hplatform]⟩)

theorem universalPlace_of_ofEntries (h : (ofEntries scripts prepopulate entries).1 = some c) :
    universalPlace (placed c.versions) = some c.universal := by
  rw [ofEntries_eq] at h
  obtain ⟨universal, huniversal, rfl⟩ := Option.map_eq_some_iff.1 h
  exact huniversal

theorem keeps_universal (h : (ofEntries scripts prepopulate entries).1 = some c) :
    ∃ n, IsGreatest (c.loadedNumbers universalPlatform) n ∧
      c.Keeps c.universal universalPlatform n := by
  obtain ⟨v, hv, hplatform, hplace, hgreatest⟩ :=
    universalPlace_greatest (placed_pairwise c.versions) (universalPlace_of_ofEntries h)
  have hholds : c.Holds c.universal universalPlatform v.data.info.number :=
    ⟨v.data, hplace ▸ mem_placed.1 hv, hplatform, rfl⟩
  refine ⟨v.data.info.number, ⟨hholds.mem, ?_⟩, hholds, ?_⟩
  · rintro k ⟨w, hw, hwplatform, rfl⟩
    obtain ⟨i, hi⟩ := List.mem_iff_getElem?.1 hw
    exact (Prod.Lex.toLex_le_toLex'.1 (hgreatest ⟨i, w⟩ (mem_placed.2 hi) hwplatform)).1
  · rintro i ⟨w, hw, hwplatform, hnumber⟩
    have hle := hgreatest ⟨i, w⟩ (mem_placed.2 hw) hwplatform
    exact hplace ▸ (Prod.Lex.toLex_le_toLex'.1 hle).2 hnumber

end BlockConvert.Catalog
