import BlockConvert.Proofs.Catalog.Kept

set_option autoImplicit false

/-!
# The version nearest to a data version

A data version resolves to the version that has it, else to the one with the least data version
above it, else to the one with the greatest data version below it. Several versions may have one
data version, and data versions need not be in the order of the numbers: of versions with the same
data version, the oldest is taken if it lies above, and the newest otherwise. Something is always
found, and a later data version never resolves to an earlier one.
-/

namespace BlockConvert

namespace Resolution

variable {loaded : Set (VersionNumber × Int)} {d d' e e' : Int} {m m' : VersionNumber}

/-! ## Nearest data versions -/

def numbersWith (loaded : Set (VersionNumber × Int)) (d : Int) : Set VersionNumber :=
  {k | (k, d) ∈ loaded}

def dataAbove (loaded : Set (VersionNumber × Int)) (d : Int) : Set Int :=
  {e | d < e ∧ (numbersWith loaded e).Nonempty}

def dataBelow (loaded : Set (VersionNumber × Int)) (d : Int) : Set Int :=
  {e | e < d ∧ (numbersWith loaded e).Nonempty}

/-- Among the loaded versions, given by their numbers and data versions, the one with the number and
the data version is what the first data version resolves to. -/
inductive NearestData (loaded : Set (VersionNumber × Int)) (d : Int) : VersionNumber → Int → Prop
  | equal {m : VersionNumber} (h : IsGreatest (numbersWith loaded d) m) : NearestData loaded d m d
  | newer {m : VersionNumber} {e : Int} (hequal : numbersWith loaded d = ∅)
      (he : IsLeast (dataAbove loaded d) e) (h : IsLeast (numbersWith loaded e) m) :
      NearestData loaded d m e
  | older {m : VersionNumber} {e : Int} (hequal : numbersWith loaded d = ∅)
      (hnewer : dataAbove loaded d = ∅) (he : IsGreatest (dataBelow loaded d) e)
      (h : IsGreatest (numbersWith loaded e) m) : NearestData loaded d m e

theorem NearestData.mem (h : NearestData loaded d m e) : (m, e) ∈ loaded := by
  cases h with
  | equal h => exact h.1
  | newer _ _ h => exact h.1
  | older _ _ _ h => exact h.1

theorem NearestData.unique (h : NearestData loaded d m e) (h' : NearestData loaded d m' e') :
    m = m' ∧ e = e' := by
  cases h with
  | equal h =>
    cases h' with
    | equal h' => exact ⟨h.unique h', rfl⟩
    | newer hequal _ _ => exact absurd h.1 (hequal ▸ Set.notMem_empty m)
    | older hequal _ _ _ => exact absurd h.1 (hequal ▸ Set.notMem_empty m)
  | newer hequal he h =>
    cases h' with
    | equal h' => exact absurd h'.1 (hequal ▸ Set.notMem_empty m')
    | newer _ he' h' =>
      obtain rfl := he.unique he'
      exact ⟨h.unique h', rfl⟩
    | older _ hnewer _ _ => exact absurd he.1 (hnewer ▸ Set.notMem_empty e)
  | older hequal hnewer he h =>
    cases h' with
    | equal h' => exact absurd h'.1 (hequal ▸ Set.notMem_empty m')
    | newer _ he' _ => exact absurd he'.1 (hnewer ▸ Set.notMem_empty e')
    | older _ _ he' h' =>
      obtain rfl := he.unique he'
      exact ⟨h.unique h', rfl⟩

/-- A data version does not resolve to anything after a loaded data version from it on. -/
theorem NearestData.le_of_mem (h : NearestData loaded d m e) {k : VersionNumber} {x : Int}
    (hk : (k, x) ∈ loaded) (hdx : d ≤ x) : e ≤ x := by
  cases h with
  | equal _ => exact hdx
  | newer hequal he _ =>
    have hne : d ≠ x := by
      rintro rfl
      exact Set.eq_empty_iff_forall_notMem.1 hequal k hk
    exact he.2 ⟨hdx.lt_of_ne hne, k, hk⟩
  | older _ _ he _ => exact he.1.1.le.trans hdx

/-- A later data version does not resolve to an earlier one. If it resolves backwards past the
earlier one, then nothing comes after it, and it resolves to the last of all. -/
theorem NearestData.mono (hdd : d ≤ d') (h : NearestData loaded d m e)
    (h' : NearestData loaded d' m' e') : e ≤ e' := by
  by_cases hle : d ≤ e'
  · exact h.le_of_mem h'.mem hle
  have hlt : e' < d' := (not_le.1 hle).trans_le hdd
  cases h' with
  | equal _ => exact absurd hlt (lt_irrefl _)
  | newer _ he' _ => exact absurd hlt he'.1.1.not_gt
  | older hequal hnewer he' _ =>
    have hne : e ≠ d' := by
      rintro rfl
      exact Set.eq_empty_iff_forall_notMem.1 hequal m h.mem
    have hnot : ¬d' < e := fun habove =>
      Set.eq_empty_iff_forall_notMem.1 hnewer e ⟨habove, m, h.mem⟩
    exact he'.2 ⟨(not_lt.1 hnot).lt_of_ne hne, m, h.mem⟩

/-! ## Searching a table -/

variable {α : Type} {dataVersion : α → Int} {table : List (VersionNumber × α)}
  {v : VersionNumber × α}

def releases (dataVersion : α → Int) (table : List (VersionNumber × α)) :
    Set (VersionNumber × Int) :=
  {r | ∃ v ∈ table, v.1 = r.1 ∧ dataVersion v.2 = r.2}

theorem mem_releases (h : v ∈ table) : (v.1, dataVersion v.2) ∈ releases dataVersion table :=
  ⟨v, h, rfl, rfl⟩

def nearestData? (dataVersion : α → Int) (table : List (VersionNumber × α)) (d : Int) :
    Option (VersionNumber × α) :=
  (scan (fun _ _ => true) (table.filter fun v => dataVersion v.2 = d)).or
    ((scan (fun v best => dataVersion v.2 < dataVersion best.2)
        (table.filter fun v => d < dataVersion v.2)).or
      (scan (fun v best => dataVersion best.2 ≤ dataVersion v.2)
        (table.filter fun v => dataVersion v.2 < d)))

theorem byDataVersion_eq (dataVersion : α → Int) (table : List (VersionNumber × α)) (d : Int) :
    byDataVersion dataVersion (table.map Prod.snd) d =
      (nearestData? dataVersion table d).map Prod.snd := by
  simp only [byDataVersion, nearestData?, getLast?_eq_scan, firstLeast_eq_scan,
    lastGreatest_eq_scan, List.filter_map, scan_map, Option.orElse_eq_or, Option.orElse_eq_orElse,
    Option.map_or]
  rfl

/-- A scan that replaces by what is less ends with the oldest version of those with the least data
version. -/
theorem least_of_scan (hsorted : Table.Sorted table) (p : Int → Bool)
    (h : scan (fun v best => dataVersion v.2 < dataVersion best.2)
      (table.filter fun v => p (dataVersion v.2)) = some v) :
    v ∈ table ∧
      IsLeast {e | p e = true ∧ (numbersWith (releases dataVersion table) e).Nonempty}
        (dataVersion v.2) ∧
      IsLeast (numbersWith (releases dataVersion table) (dataVersion v.2)) v.1 := by
  have hreplaces : (table.filter fun v => p (dataVersion v.2)).Pairwise fun a b =>
      decide (dataVersion b.2 < dataVersion a.2) = true ↔
        toLex (dataVersion b.2, b.1) < toLex (dataVersion a.2, a.1) := by
    refine (hsorted.filter _).imp fun {a b} hab => ?_
    have hnot : ¬b.1 < a.1 := lt_asymm (VersionNumber.before_iff_lt.1 hab)
    simp [Prod.Lex.toLex_lt_toLex, hnot]
  obtain ⟨hmem, hleast⟩ := scan_least _ hreplaces h
  obtain ⟨hv, hp⟩ := List.mem_filter.1 hmem
  refine ⟨hv, ⟨⟨hp, v.1, mem_releases hv⟩, ?_⟩, mem_releases hv, ?_⟩
  · rintro e ⟨he, k, w, hw, -, rfl⟩
    exact (Prod.Lex.toLex_le_toLex'.1 (hleast w (List.mem_filter.2 ⟨hw, he⟩))).1
  · rintro k ⟨w, hw, rfl, hdata⟩
    have hmem : w ∈ table.filter fun v => p (dataVersion v.2) :=
      List.mem_filter.2 ⟨hw, by rw [hdata]; exact hp⟩
    exact (Prod.Lex.toLex_le_toLex'.1 (hleast w hmem)).2 hdata.symm

/-- A scan that replaces by what is not less ends with the newest version of those with the greatest
data version. -/
theorem greatest_of_scan (hsorted : Table.Sorted table) (p : Int → Bool)
    {replaces : VersionNumber × α → VersionNumber × α → Bool}
    (hnotLess : ∀ a b : VersionNumber × α, p (dataVersion a.2) = true → p (dataVersion b.2) = true →
      (replaces b a = true ↔ dataVersion a.2 ≤ dataVersion b.2))
    (h : scan replaces (table.filter fun v => p (dataVersion v.2)) = some v) :
    v ∈ table ∧
      IsGreatest {e | p e = true ∧ (numbersWith (releases dataVersion table) e).Nonempty}
        (dataVersion v.2) ∧
      IsGreatest (numbersWith (releases dataVersion table) (dataVersion v.2)) v.1 := by
  have hreplaces : (table.filter fun v => p (dataVersion v.2)).Pairwise fun a b =>
      replaces b a = true ↔ OrderDual.toDual (toLex (dataVersion b.2, b.1)) <
        OrderDual.toDual (toLex (dataVersion a.2, a.1)) := by
    refine (hsorted.filter _).imp_of_mem fun {a b} ha hb hab => ?_
    have hlt : a.1 < b.1 := VersionNumber.before_iff_lt.1 hab
    rw [hnotLess a b (List.mem_filter.1 ha).2 (List.mem_filter.1 hb).2,
      OrderDual.toDual_lt_toDual, Prod.Lex.toLex_lt_toLex, le_iff_lt_or_eq]
    simp [hlt]
  obtain ⟨hmem, hgreatest⟩ := scan_least _ hreplaces h
  obtain ⟨hv, hp⟩ := List.mem_filter.1 hmem
  refine ⟨hv, ⟨⟨hp, v.1, mem_releases hv⟩, ?_⟩, mem_releases hv, ?_⟩
  · rintro e ⟨he, k, w, hw, -, rfl⟩
    have hle := OrderDual.toDual_le_toDual.1 (hgreatest w (List.mem_filter.2 ⟨hw, he⟩))
    exact (Prod.Lex.toLex_le_toLex'.1 hle).1
  · rintro k ⟨w, hw, rfl, hdata⟩
    have hmem : w ∈ table.filter fun v => p (dataVersion v.2) :=
      List.mem_filter.2 ⟨hw, by rw [hdata]; exact hp⟩
    have hle := OrderDual.toDual_le_toDual.1 (hgreatest w hmem)
    exact (Prod.Lex.toLex_le_toLex'.1 hle).2 hdata

theorem false_of_scan {replaces : VersionNumber × α → VersionNumber × α → Bool} (p : Int → Bool)
    (h : scan replaces (table.filter fun v => p (dataVersion v.2)) = none) (hv : v ∈ table) :
    p (dataVersion v.2) = false := by
  rw [← Bool.not_eq_true]
  exact List.filter_eq_nil_iff.1 (eq_nil_of_scan h) v hv

theorem nearestData_of_nearestData? (hsorted : Table.Sorted table)
    (h : nearestData? dataVersion table d = some v) :
    v ∈ table ∧ NearestData (releases dataVersion table) d v.1 (dataVersion v.2) := by
  rcases Option.or_eq_some_iff.1 h with hequal | ⟨hequal, h⟩
  · obtain ⟨hv, ⟨⟨hp, -⟩, -⟩, hgreatest⟩ :=
      greatest_of_scan hsorted (fun e => e = d) (fun a b ha hb => by simp_all) hequal
    obtain rfl : dataVersion v.2 = d := by simpa using hp
    exact ⟨hv, .equal hgreatest⟩
  have hequal : numbersWith (releases dataVersion table) d = ∅ := by
    refine Set.eq_empty_iff_forall_notMem.2 ?_
    rintro k ⟨w, hw, -, hdata⟩
    simpa [hdata] using false_of_scan (fun e => e = d) hequal hw
  rcases Option.or_eq_some_iff.1 h with hnewer | ⟨hnewer, h⟩
  · obtain ⟨hv, hdata, hleast⟩ := least_of_scan hsorted (fun e => d < e) hnewer
    exact ⟨hv, .newer hequal (by simpa [dataAbove] using hdata) hleast⟩
  · obtain ⟨hv, hdata, hgreatest⟩ :=
      greatest_of_scan hsorted (fun e => e < d) (fun a b _ _ => by simp) h
    refine ⟨hv, .older hequal ?_ (by simpa [dataBelow] using hdata) hgreatest⟩
    refine Set.eq_empty_iff_forall_notMem.2 ?_
    rintro e ⟨hlt, k, w, hw, -, rfl⟩
    have hnot := false_of_scan (fun e => d < e) hnewer hw
    simp only [hlt, decide_true, Bool.true_eq_false] at hnot

/-- Every data version is equal to another one, or above it, or below it. -/
theorem eq_nil_of_nearestData? (h : nearestData? dataVersion table d = none) : table = [] := by
  obtain ⟨hequal, h⟩ := Option.or_eq_none_iff.1 h
  obtain ⟨hnewer, holder⟩ := Option.or_eq_none_iff.1 h
  refine List.eq_nil_iff_forall_not_mem.2 fun v hv => ?_
  have hne := false_of_scan (fun e => e = d) hequal hv
  have hnot := false_of_scan (fun e => d < e) hnewer hv
  have hnot' := false_of_scan (fun e => e < d) holder hv
  simp only [decide_eq_false_iff_not] at hne hnot hnot'
  omega

end Resolution

/-! ## Resolution in a catalog -/

namespace Catalog

open Resolution (NearestData)

variable {scripts : Scripts} {prepopulate : Bool} {entries : List (String × Option VersionData)}
  {c : Catalog} {platform : String} {m : VersionNumber} {d : Int} {place : Nat}

def keptReleases (c : Catalog) (platform : String) : Set (VersionNumber × Int) :=
  {r | ∃ place, c.Keeps place platform r.1 ∧ c.dataVersionAt place = r.2}

theorem mem_table_iff (h : (ofEntries scripts prepopulate entries).1 = some c)
    {table : List (VersionNumber × Nat)} (htable : c.table.get? platform = some table) :
    (m, place) ∈ table ↔ c.Keeps place platform m := by
  have hsorted := (inOrder_table h platform table htable).1
  rw [← placeIn_eq_some_iff h, placeIn, htable, Option.bind_some]
  exact ⟨Table.get?_of_mem hsorted, Table.mem_of_get?_eq_some⟩

theorem releases_eq_kept (h : (ofEntries scripts prepopulate entries).1 = some c)
    {table : List (VersionNumber × Nat)} (htable : c.table.get? platform = some table) :
    Resolution.releases c.dataVersionAt table = c.keptReleases platform := by
  ext ⟨k, e⟩
  constructor
  · rintro ⟨⟨k, place⟩, hmem, rfl, rfl⟩
    exact ⟨place, (mem_table_iff h htable).1 hmem, rfl⟩
  · rintro ⟨place, hkeeps, rfl⟩
    exact ⟨(k, place), (mem_table_iff h htable).2 hkeeps, rfl, rfl⟩

theorem resolve_dataVersion (h : (ofEntries scripts prepopulate entries).1 = some c)
    (hloaded : (c.loadedNumbers platform).Nonempty) (d : Int) :
    ∃ place m, c.resolve platform (.dataVersion d) = .ok place ∧ c.Keeps place platform m ∧
      NearestData (c.keptReleases platform) d m (c.dataVersionAt place) := by
  obtain ⟨table, htable, hsorted, hnumbers⟩ := exists_table h hloaded
  have hresolve : Resolution.resolve c.dataVersionAt table (.dataVersion d) =
      (Resolution.nearestData? c.dataVersionAt table d).map Prod.snd :=
    Resolution.byDataVersion_eq _ _ _
  cases hfound : Resolution.nearestData? c.dataVersionAt table d with
  | none =>
    obtain ⟨k, v, hmem⟩ := hnumbers ▸ hloaded
    rw [Resolution.eq_nil_of_nearestData? hfound] at hmem
    contradiction
  | some v =>
    obtain ⟨hmem, hnearest⟩ := Resolution.nearestData_of_nearestData? hsorted hfound
    rw [releases_eq_kept h htable] at hnearest
    refine ⟨v.2, v.1, ?_, (mem_table_iff h htable).1 hmem, hnearest⟩
    simp only [resolve, htable, hresolve, hfound, Option.map_some]

theorem resolve_dataVersion_iff (h : (ofEntries scripts prepopulate entries).1 = some c)
    (hloaded : (c.loadedNumbers platform).Nonempty) :
    c.resolve platform (.dataVersion d) = .ok place ↔
      ∃ m, c.Keeps place platform m ∧
        NearestData (c.keptReleases platform) d m (c.dataVersionAt place) := by
  obtain ⟨found, k, hfound, hkeeps, hnearest⟩ := resolve_dataVersion h hloaded d
  constructor
  · intro hplace
    obtain rfl : found = place := Except.ok.inj (hfound.symm.trans hplace)
    exact ⟨k, hkeeps, hnearest⟩
  · rintro ⟨m, hkeeps', hnearest'⟩
    obtain ⟨rfl, -⟩ := hnearest.unique hnearest'
    rw [hfound, hkeeps.unique hkeeps']

/-- Whatever was loaded of a platform, a data version is answered, and with the nearest version: the
newest one that has it, else the oldest one with the least data version above it, else the newest
one with the greatest data version below it. Later data versions get later ones, or the same. -/
theorem resolve_dataVersion_nearest (h : (ofEntries scripts prepopulate entries).1 = some c)
    (hloaded : (c.loadedNumbers platform).Nonempty) :
    (∀ d, ∃ place, c.resolve platform (.dataVersion d) = .ok place) ∧
      (∀ d place, c.resolve platform (.dataVersion d) = .ok place ↔
        ∃ m, c.Keeps place platform m ∧
          NearestData (c.keptReleases platform) d m (c.dataVersionAt place)) ∧
      ∀ d d' place place', d ≤ d' → c.resolve platform (.dataVersion d) = .ok place →
        c.resolve platform (.dataVersion d') = .ok place' →
        c.dataVersionAt place ≤ c.dataVersionAt place' := by
  refine ⟨fun d => ?_, fun d place => resolve_dataVersion_iff h hloaded,
    fun d d' place place' hle hplace hplace' => ?_⟩
  · obtain ⟨place, -, hplace, -⟩ := resolve_dataVersion h hloaded d
    exact ⟨place, hplace⟩
  · obtain ⟨m, -, hnearest⟩ := (resolve_dataVersion_iff h hloaded).1 hplace
    obtain ⟨m', -, hnearest'⟩ := (resolve_dataVersion_iff h hloaded).1 hplace'
    exact hnearest.mono hle hnearest'

/-- Releases of which two share a data version, and the one with the least number has the greatest
data version. -/
def unorderedReleases : List (String × Option VersionData) :=
  [("universal", some (.ofMeta ⟨"universal", ⟨1, 0, 0⟩, 0, .blockstate⟩)),
   ("bedrock_1_16_0", some (.ofMeta ⟨"bedrock", ⟨1, 16, 0⟩, 0, .blockstate⟩)),
   ("bedrock_1_16_20", some (.ofMeta ⟨"bedrock", ⟨1, 16, 20⟩, 0, .blockstate⟩)),
   ("bedrock_1_14_0", some (.ofMeta ⟨"bedrock", ⟨1, 14, 0⟩, 7, .blockstate⟩))]

theorem resolve_dataVersion_nearest_unordered :
    ∃ c, (ofEntries ∅ false unorderedReleases).1 = some c ∧
      (c.loadedNumbers "bedrock").Nonempty ∧
      c.resolve "bedrock" (.dataVersion 0) = .ok 2 ∧
      c.resolve "bedrock" (.dataVersion (-1)) = .ok 1 ∧
      (∃ m, c.Keeps 1 "bedrock" m ∧ NearestData (c.keptReleases "bedrock") (-1) m 0) ∧
      c.resolve "bedrock" (.dataVersion 5) = .ok 3 ∧
      ∃ m, c.Keeps 3 "bedrock" m ∧ NearestData (c.keptReleases "bedrock") 5 m 7 := by
  have hrun : ∃ c, (ofEntries ∅ false unorderedReleases).1 = some c ∧
      c.versions = unorderedReleases.filterMap Prod.snd ∧
      c.resolve "bedrock" (.dataVersion 0) = .ok 2 ∧
      c.resolve "bedrock" (.dataVersion (-1)) = .ok 1 ∧ c.dataVersionAt 1 = 0 ∧
      c.resolve "bedrock" (.dataVersion 5) = .ok 3 ∧ c.dataVersionAt 3 = 7 :=
    ⟨_, rfl, rfl, rfl, rfl, rfl, rfl, rfl⟩
  obtain ⟨c, h, hversions, hequal, hnewer, hdata, hnewest, hdata'⟩ := hrun
  have hholds : c.Holds 1 "bedrock" ⟨1, 16, 0⟩ := by
    rw [Holds, hversions]
    exact ⟨_, rfl, rfl, rfl⟩
  have hloaded : (c.loadedNumbers "bedrock").Nonempty := ⟨_, hholds.mem⟩
  obtain ⟨-, hiff, -⟩ := resolve_dataVersion_nearest h hloaded
  exact ⟨c, h, hloaded, hequal, hnewer, hdata ▸ (hiff (-1) 1).1 hnewer, hnewest,
    hdata' ▸ (hiff 5 3).1 hnewest⟩

end Catalog

end BlockConvert
