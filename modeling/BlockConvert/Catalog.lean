import BlockConvert.Catalog.BlockNumbers
import BlockConvert.Catalog.Resolution
import BlockConvert.Catalog.RuleFiles
import BlockConvert.Desk

set_option autoImplicit false

/-!
# The catalog of versions

All versions that were loaded, by platform and number, and the universal one. Of two versions with
the same platform and number the one that was loaded last is kept. A session is a catalog together
with what changes while it serves: a desk for every version, the counters, bound numbers, and the
versions that were asked for.
-/

namespace BlockConvert

/-- Versions that were loaded, in the order of loading, each by its place in the list. -/
structure Catalog where
  scripts : Scripts
  prepopulate : Bool
  versions : List VersionData
  /-- The places of versions by platform and number. -/
  table : Dict (List (VersionNumber × Nat))
  universal : Nat

structure Loaded where
  place : Nat
  data : VersionData

namespace Catalog

def universalPlatform : String := "universal"

/-- The place of the universal version with the greatest number, the last one if there are
several. -/
def universalPlace (loaded : List Loaded) : Option Nat :=
  (loaded.foldl (fun (best : Option Loaded) v =>
    if v.data.info.platform ≠ universalPlatform then best
    else match best with
      | some b => if KeyOrder.before v.data.info.number b.data.info.number then best else some v
      | none => some v) none).map Loaded.place

def enter (table : Dict (List (VersionNumber × Nat))) (v : Loaded) :
    Dict (List (VersionNumber × Nat)) :=
  let platform := v.data.info.platform
  table.insert platform (Table.insert v.data.info.number v.place ((table.get? platform).getD []))

def isEntered (table : Dict (List (VersionNumber × Nat))) (v : Loaded) : Bool :=
  ((table.get? v.data.info.platform).bind (Table.get? · v.data.info.number)).isSome

def enterAll (table : Dict (List (VersionNumber × Nat))) :
    List Loaded → Dict (List (VersionNumber × Nat)) × List Notice
  | [] => (table, [])
  | v :: rest =>
    let (result, notices) := enterAll (enter table v) rest
    (result, if isEntered table v then
      .duplicateVersion v.data.info.platform v.data.info.number :: notices else notices)

def loadingNotices : String × Option VersionData → List Notice
  | (name, none) => [.versionBroken name]
  | (name, some v) =>
    (if v.info.blockFormat.isAbstract && v.blockNumbers.entries.isEmpty then [.noBlockNumbers name]
     else []) ++ [.versionLoaded v.info name]

/-- The catalog of the versions that could be loaded; nothing without a universal one. -/
def ofEntries (scripts : Scripts) (prepopulate : Bool)
    (entries : List (String × Option VersionData)) : Option Catalog × List Notice :=
  let versions := entries.filterMap Prod.snd
  let loaded := versions.zipIdx.map fun (v, i) => ⟨i, v⟩
  let notices := entries.flatMap loadingNotices
  match universalPlace loaded with
  | none => (none, notices)
  | some universal =>
    let (table, replaced) := enterAll ∅ loaded
    (some ⟨scripts, prepopulate, versions, table, universal⟩, notices ++ replaced)

def noUniversalMessage : String := "the rule source has no universal version"

def platforms (c : Catalog) : List String := c.table.keys

def versionNumbers (c : Catalog) (platform : String) : List VersionNumber :=
  ((c.table.get? platform).map fun t => t.map Prod.fst).getD []

def dataVersionAt (c : Catalog) (place : Nat) : Int :=
  (c.versions[place]?.map fun v => v.info.dataVersion).getD 0

def resolve (c : Catalog) (platform : String) (selector : Selector) : Except ResolutionError Nat :=
  match c.table.get? platform with
  | none => .error (.unknownPlatform platform)
  | some table =>
    match Resolution.resolve c.dataVersionAt table selector with
    | some place => .ok place
    | none => .error (.noMatch platform selector)

def converters? (c : Catalog) (place : Nat) : Option Converters := do
  let version ← c.versions[place]?
  let universal ← c.versions[c.universal]?
  return ⟨version, universal, c.scripts, c.prepopulate⟩

end Catalog

structure VersionRequest where
  platform : String
  selector : Selector
deriving DecidableEq

structure Session where
  catalog : Catalog
  desks : List Desk
  counters : Counters
  blockIds : NumericIds
  biomeIds : NumericIds
  /-- The places of the versions that requests were resolved to. -/
  resolved : List (VersionRequest × Nat)

namespace Session

def start (c : Catalog) : Session where
  catalog := c
  desks := c.versions.map fun _ => .empty
  counters := { Counters.zero with versions := c.versions.length }
  blockIds := .empty
  biomeIds := .empty
  resolved := []

/-- The place of the version for a request. A place that was found is remembered. -/
def version (s : Session) (q : VersionRequest) : Except ResolutionError Nat × Session :=
  match s.resolved.lookup q with
  | some place => (.ok place, s)
  | none =>
    match s.catalog.resolve q.platform q.selector with
    | .ok place => (.ok place, { s with resolved := (q, place) :: s.resolved })
    | .error e => (.error e, s)

def desk (s : Session) (place : Nat) : Desk := s.desks[place]?.getD .empty

def after (s : Session) (place : Nat) (a : Answer) : Session :=
  { s with desks := s.desks.set place a.desk, counters := a.counters }

def serve (s : Session) (place : Nat) (ask : Converters → Desk → Counters → Answer) :
    Option (Answer × Session) :=
  (s.catalog.converters? place).map fun c =>
    let a := ask c (s.desk place) s.counters
    (a, s.after place a)

end Session

end BlockConvert
