import BlockConvert.Notice

set_option autoImplicit false

/-!
# Rule files

A directory of rule files, given as the texts of its files by path; a path without a text is an
empty directory. Paths may lead to one place in several ways. Each directory under `versions` with a
metadata file is a version. The other files of a version may be absent.
-/

namespace BlockConvert

abbrev RuleFiles := List (String × Option String)

namespace RuleFiles

def versionsDir : String := "versions"

def metaFile : String := "__init__.json"

def parts (path : String) : List String := (Text.splitAll '/' path.toList).map String.ofList

/-- Where a part of a path leads to. Nothing and a dot stay, two dots go back. -/
def follow (place : List String) (part : String) : List String :=
  if part = "" ∨ part = "." then place
  else if part = ".." then place.dropLast
  else place ++ [part]

def placeOf (path : String) : List String := (parts path).foldl follow []

def through (place : List String) : List String → List (List String)
  | [] => []
  | p :: rest => follow place p :: through (follow place p) rest

def hasVersions (files : RuleFiles) : Bool :=
  files.any fun (path, text) =>
    let directories := if text.isNone then parts path else (parts path).dropLast
    (through [] directories).contains [versionsDir]

def versionOf? (path : String) : Option String :=
  match placeOf path with
  | [dir, name, file] => if dir = versionsDir ∧ file = metaFile then some name else none
  | _ => none

def versionNames (files : RuleFiles) : List String :=
  (Dict.ofList (files.filterMap fun (path, text) =>
    if text.isSome then (versionOf? path).map (·, ()) else none)).keys

/-- The text of a file of a version, if there is one; the last one written to its place. -/
def file? (files : RuleFiles) (version file : String) : Option String :=
  (files.filter fun e => placeOf e.1 == [versionsDir, version, file]).getLast?.bind Prod.snd

def optional? {α : Type} (files : RuleFiles) (version file : String) (parse? : String → Option α) :
    Option (Option α) :=
  match files.file? version file with
  | none => some none
  | some text => (parse? text).map some

open Json.Decoder in
def blockNumbers? (text : String) : Option (Dict Int32) := (Json.parse? text).bind (dict int32)

def names? (text : String) : Option (List String) :=
  ((Json.parse? text).bind (Json.Decoder.list Json.Decoder.text)).map List.eraseDups

def loadVersion? (files : RuleFiles) (version : String) : Option VersionData := do
  let info ← (files.file? version metaFile).bind VersionMeta.parse?
  let block ← files.optional? version "block.json" Database.parse?
  let entity ← files.optional? version "entity.json" Database.parse?
  let numbers ← files.optional? version "__numerical_block_map__.json" blockNumbers?
  let waterloggable ← files.optional? version "__waterloggable__.json" names?
  let alwaysWaterlogged ← files.optional? version "__always_waterlogged__.json" names?
  return {
    info, waterloggable, alwaysWaterlogged
    block := block.getD .empty
    entity := entity.getD .empty
    blockNumbers := numbers.getD ∅ }

/-- The versions of a directory in the order of their names, each with what is declared for it if it
can be read; nothing if there is no directory of versions. -/
def load? (files : RuleFiles) : Option (List (String × Option VersionData)) :=
  if files.hasVersions then some (files.versionNames.map fun v => (v, files.loadVersion? v))
  else none

end RuleFiles

end BlockConvert
