import BlockConvert.Proofs.Catalog.Kept

set_option autoImplicit false

/-!
# Loading agrees with itself

The universal version is chosen from the list of all versions that were loaded, and the tables are
filled from the same list on their own; they agree on which version is the universal one. Entries
that could not be loaded leave no trace. While a session serves it remembers what requests for
versions were resolved to, and what it remembers is what the tables say.
-/

namespace BlockConvert

/-! ## What a session remembers -/

namespace Session

variable {s : Session}

/-- What is remembered for a request is what the catalog resolves it to. -/
def Faithful (s : Session) : Prop :=
  ∀ q place, (q, place) ∈ s.resolved → s.catalog.resolve q.platform q.selector = .ok place

def answers (s : Session) : List VersionRequest → List (Except ResolutionError Nat)
  | [] => []
  | q :: rest => (s.version q).1 :: answers (s.version q).2 rest

theorem start_faithful (c : Catalog) : (start c).Faithful := nofun

theorem catalog_version (s : Session) (q : VersionRequest) :
    (s.version q).2.catalog = s.catalog := by
  unfold version
  split
  · rfl
  · split <;> rfl

/-- A session answers a request as its catalog does, whether it remembers the request or not. -/
theorem Faithful.version_eq (h : s.Faithful) (q : VersionRequest) :
    (s.version q).1 = s.catalog.resolve q.platform q.selector := by
  unfold version
  cases hlookup : s.resolved.lookup q with
  | some place =>
    obtain ⟨before, after, heq, -⟩ := List.lookup_eq_some_iff.1 hlookup
    exact (h q place (heq ▸ List.mem_append_right _ List.mem_cons_self)).symm
  | none =>
    dsimp only
    split
    · rename_i place hplace
      exact hplace.symm
    · rename_i e he
      exact he.symm

/-- Only what was resolved is remembered, failures are not. -/
theorem Faithful.version (h : s.Faithful) (q : VersionRequest) : (s.version q).2.Faithful := by
  unfold Session.version
  split
  · exact h
  · split
    · rename_i place hplace
      intro q' place' hmem
      rcases List.mem_cons.1 hmem with heq | hmem
      · obtain ⟨rfl, rfl⟩ := Prod.mk.inj heq
        exact hplace
      · exact h q' place' hmem
    · exact h

theorem Faithful.answers_eq (h : s.Faithful) (requests : List VersionRequest) :
    s.answers requests = requests.map fun q => s.catalog.resolve q.platform q.selector := by
  induction requests generalizing s with
  | nil => rfl
  | cons q rest ih => rw [answers, h.version_eq, ih (h.version q), catalog_version, List.map_cons]

end Session

/-! ## Loading -/

namespace Catalog

variable {scripts : Scripts} {prepopulate : Bool} {entries : List (String × Option VersionData)}
  {c : Catalog}

theorem ofEntries_loaded (scripts : Scripts) (prepopulate : Bool)
    (entries : List (String × Option VersionData)) :
    (ofEntries scripts prepopulate (entries.filter fun e => e.2.isSome)).1 =
      (ofEntries scripts prepopulate entries).1 := by
  have hversions : (entries.filter fun e => e.2.isSome).filterMap Prod.snd =
      entries.filterMap Prod.snd := by
    rw [List.filterMap_filter]
    congr 1
    funext ⟨name, v⟩
    cases v <;> rfl
  rw [ofEntries_eq, ofEntries_eq, hversions]

theorem ofEntries_eq_none_iff : (ofEntries scripts prepopulate entries).1 = none ↔
    ∀ name v, (name, some v) ∈ entries → v.info.platform ≠ universalPlatform := by
  rw [ofEntries_eq, Option.map_eq_none_iff, universalPlace_eq_none_iff]
  constructor
  · intro h name v hmem
    have hloaded : v ∈ entries.filterMap Prod.snd := List.mem_filterMap.2 ⟨_, hmem, rfl⟩
    obtain ⟨i, hi⟩ := List.mem_iff_getElem?.1 hloaded
    exact h ⟨i, v⟩ (mem_placed.2 hi)
  · intro h v hv
    have hloaded := List.mem_of_getElem? (mem_placed.1 hv)
    obtain ⟨⟨name, found⟩, hmem, rfl⟩ := List.mem_filterMap.1 hloaded
    exact h name v.data hmem

theorem converters?_eq (h : (ofEntries scripts prepopulate entries).1 = some c) {place : Nat}
    {v u : VersionData} (hv : c.versions[place]? = some v)
    (hu : c.versions[c.universal]? = some u) :
    c.converters? place = some ⟨v, u, scripts, prepopulate⟩ := by
  rw [ofEntries_eq] at h
  obtain ⟨universal, -, rfl⟩ := Option.map_eq_some_iff.1 h
  simp only [converters?, hv, hu]
  rfl

structure Coherent (c : Catalog) (scripts : Scripts) (prepopulate : Bool)
    (versions : List VersionData) : Prop where
  versions : c.versions = versions
  /-- In the tables stands what was loaded last. -/
  table : ∀ platform number place,
    placeIn c.table platform number = some place ↔ c.Keeps place platform number
  /-- The universal version is the one in the tables under the greatest universal number. -/
  universal : ∃ n, IsGreatest (c.loadedNumbers universalPlatform) n ∧
    placeIn c.table universalPlatform n = some c.universal
  /-- All versions are converted to and from what the universal one declares. -/
  converters : ∃ u, c.versions[c.universal]? = some u ∧
    ∀ place v, c.versions[place]? = some v →
      c.converters? place = some ⟨v, u, scripts, prepopulate⟩
  /-- Whatever is asked for, and however often, is answered from the tables. -/
  answers : ∀ requests, (Session.start c).answers requests =
    requests.map fun q => c.resolve q.platform q.selector
  /-- The same request is answered with the same place again. -/
  again : ∀ (requests : List VersionRequest) (i j : Nat), requests[i]? = requests[j]? →
    ((Session.start c).answers requests)[i]? = ((Session.start c).answers requests)[j]?

theorem coherent_of_ofEntries (h : (ofEntries scripts prepopulate entries).1 = some c) :
    c.Coherent scripts prepopulate (entries.filterMap Prod.snd) where
  versions := (eq_of_ofEntries h).1
  table _ _ _ := placeIn_eq_some_iff h
  universal := by
    obtain ⟨n, hgreatest, hkeeps⟩ := keeps_universal h
    exact ⟨n, hgreatest, (placeIn_eq_some_iff h).2 hkeeps⟩
  converters := by
    obtain ⟨n, -, hkeeps⟩ := keeps_universal h
    obtain ⟨u, hu, -⟩ := hkeeps.holds
    exact ⟨u, hu, fun place v hv => converters?_eq h hv hu⟩
  answers := (Session.start_faithful c).answers_eq
  again requests i j hij := by
    rw [(Session.start_faithful c).answers_eq, List.getElem?_map, List.getElem?_map, hij]

/-- There is no catalog exactly if no universal version was loaded, entries that were not loaded
make no difference, and a catalog agrees with itself while it serves. -/
theorem loading_coherent (scripts : Scripts) (prepopulate : Bool)
    (entries : List (String × Option VersionData)) :
    ((ofEntries scripts prepopulate entries).1 = none ↔
      ∀ name v, (name, some v) ∈ entries → v.info.platform ≠ universalPlatform) ∧
    (ofEntries scripts prepopulate (entries.filter fun e => e.2.isSome)).1 =
      (ofEntries scripts prepopulate entries).1 ∧
    ∀ c, (ofEntries scripts prepopulate entries).1 = some c →
      c.Coherent scripts prepopulate (entries.filterMap Prod.snd) :=
  ⟨ofEntries_eq_none_iff, ofEntries_loaded scripts prepopulate entries,
    fun _ => coherent_of_ofEntries⟩

/-- Entries of which one is broken, and two platforms have the same number twice. -/
def repeatedEntries : List (String × Option VersionData) :=
  [("universal", some (.ofMeta ⟨"universal", ⟨1, 0, 0⟩, 0, .blockstate⟩)),
   ("java_1_12_2", some (.ofMeta ⟨"java", ⟨1, 12, 2⟩, 1343, .numerical⟩)),
   ("java_1_13", none),
   ("java_1_12_2_patched", some (.ofMeta ⟨"java", ⟨1, 12, 2⟩, 1343, .pseudoNumerical⟩)),
   ("universal_patched", some (.ofMeta ⟨"universal", ⟨1, 0, 0⟩, 0, .blockstate⟩))]

theorem loading_coherent_repeated :
    ∃ c, (ofEntries ∅ false repeatedEntries).1 = some c ∧ c.universal = 3 ∧
      c.Coherent ∅ false (repeatedEntries.filterMap Prod.snd) ∧
      (Session.start c).answers [⟨"java", .number ⟨1, 12, 2⟩⟩, ⟨"pocket", .dataVersion 1⟩,
        ⟨"java", .number ⟨1, 12, 2⟩⟩] = [.ok 2, .error (.unknownPlatform "pocket"), .ok 2] := by
  have hrun : ∃ c, (ofEntries ∅ false repeatedEntries).1 = some c ∧ c.universal = 3 ∧
      c.resolve "java" (.number ⟨1, 12, 2⟩) = .ok 2 ∧
      c.resolve "pocket" (.dataVersion 1) = .error (.unknownPlatform "pocket") :=
    ⟨_, rfl, rfl, rfl, rfl⟩
  obtain ⟨c, h, huniversal, hjava, hpocket⟩ := hrun
  obtain ⟨-, -, hcoherent⟩ := loading_coherent ∅ false repeatedEntries
  refine ⟨c, h, huniversal, hcoherent c h, ?_⟩
  rw [(hcoherent c h).answers, List.map_cons, List.map_cons, List.map_cons, List.map_nil, hjava,
    hpocket]

end Catalog

end BlockConvert
