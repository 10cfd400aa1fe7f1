import BlockConvert.Desk.Route
import BlockConvert.Metrics

set_option autoImplicit false

/-!
# The desk of a version

Serves conversions and contains their failures: a record without an entry is handed back as it is,
and so is one whose conversion fails, marked as lacking data. Results for blocks that depend on the
block alone are kept and served again. A missing entry is reported once for each name, direction and
layout.
-/

namespace BlockConvert

structure MemoKey where
  direction : Direction
  forceBlockstate : Bool
  block : Block
deriving DecidableEq

abbrev Memo := List (MemoKey × Conversion)

structure MissingKey where
  name : String
  direction : Direction
  format : FormatKey
deriving DecidableEq

structure Desk where
  memo : Memo
  reportedBlocks : List MissingKey
  reportedEntities : List MissingKey

structure BlockCall where
  direction : Direction
  block : Block
  lookup : Option Lookup
  forceBlockstate : Bool
  extraInput : Option BlockEntity
  location : Option Coords

namespace BlockCall

def memoKey (q : BlockCall) : MemoKey := ⟨q.direction, q.forceBlockstate, q.block⟩

/-- A result is looked up and kept only for a block that comes without a block entity. -/
def isMemoisable (q : BlockCall) : Bool := q.extraInput.isNone

end BlockCall

structure EntityCall where
  direction : Direction
  entity : Entity
  forceBlockstate : Bool

structure Answer where
  conversion : Conversion
  desk : Desk
  counters : Counters
  notices : List Notice

namespace Desk

def empty : Desk := ⟨[], [], []⟩

def kept (d : Desk) : Nat := d.memo.length

def reported (d : Desk) : RecordKind → List MissingKey
  | .block => d.reportedBlocks
  | .entity => d.reportedEntities

def report (d : Desk) (key : MissingKey) : RecordKind → Desk
  | .block => { d with reportedBlocks := key :: d.reportedBlocks }
  | .entity => { d with reportedEntities := key :: d.reportedEntities }

/-- A block that only has a number for its data was never converted by name. -/
def isHeldAsNumbers (b : Block) : Bool :=
  b.id.space == RecordId.defaultSpace && b.properties.keys == ["block_data"]

def missingNotice (s : Subject) (cause : NotFound) : Notice :=
  match s.direction, s.record with
  | .fromUniversal, .block b => if isHeldAsNumbers b then .missingForNumbers s else .missing s cause
  | _, _ => .missing s cause

def handBack (c : Converters) (kind : RecordKind) (record : Record) (direction : Direction)
    (extraInput : Option BlockEntity) (cause : NotFound) (d : Desk) (n : Counters) : Answer :=
  let key : MissingKey := ⟨record.id.text, direction, cause.format⟩
  let conversion := Conversion.unchanged record extraInput false
  if key ∈ d.reported kind then ⟨conversion, d, n.countMissing, []⟩
  else ⟨conversion, d.report key kind, n.countMissing,
    [missingNotice (c.subject record direction) cause]⟩

def convert (c : Converters) (direction : Direction) (q : Request) (d : Desk) (n : Counters) :
    Answer :=
  let report := q.run
  let counted := n.countConversion
  match report.result with
  | .ok conversion =>
    ⟨conversion, d, if conversion.extraNeeded then counted.countExtraNeeded else counted,
      report.notices⟩
  | .error cause =>
    ⟨.unchanged q.input q.extraInput true, d, counted.countFailure.countExtraNeeded,
      report.notices ++ [.failed (c.subject q.input direction) cause]⟩

def keep (q : BlockCall) (a : Answer) : Answer :=
  if q.isMemoisable && a.conversion.cacheable then
    { a with desk := { a.desk with memo := (q.memoKey, a.conversion) :: a.desk.memo } }
  else a

def serveNew (c : Converters) (q : BlockCall) (d : Desk) (n : Counters) : Answer :=
  match c.route .block q.direction q.forceBlockstate q.block.id with
  | .error cause => handBack c .block (.block q.block) q.direction q.extraInput cause d n
  | .ok route =>
    keep q (convert c q.direction
      (c.request route (.block q.block) q.lookup q.extraInput q.location) d n)

def serveBlock (c : Converters) (q : BlockCall) (d : Desk) (n : Counters) : Answer :=
  if q.isMemoisable then
    match d.memo.lookup q.memoKey with
    | some conversion => ⟨conversion, d, n.countHit, []⟩
    | none => serveNew c q d n.countMiss
  else serveNew c q d n

def serveEntity (c : Converters) (q : EntityCall) (d : Desk) (n : Counters) : Answer :=
  match c.route .entity q.direction q.forceBlockstate q.entity.id with
  | .error cause => handBack c .entity (.entity q.entity) q.direction none cause d n
  | .ok route =>
    convert c q.direction (c.request route (.entity q.entity) none none none) d n

end Desk

end BlockConvert
