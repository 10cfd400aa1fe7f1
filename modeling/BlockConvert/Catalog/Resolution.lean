import BlockConvert.Text.Quoted
import BlockConvert.Version

set_option autoImplicit false

/-!
# Resolution of versions

A version is asked for by its number or by its data version. If there is none, a near one is taken:
for a number the next patch of the same minor version, else the newest older version, else, for a
number from before names replaced numbers, the oldest newer one; for a data version the next newer
one, else the newest older one. Tables are in the order of numbers.
-/

namespace BlockConvert

inductive Selector where
  | number (number : VersionNumber)
  | dataVersion (version : Int)
deriving DecidableEq

namespace Selector

def describe : Selector → String
  | number n => "version " ++ n.text
  | dataVersion v => "data version " ++ String.ofList (Decimal.signed v)

end Selector

inductive ResolutionError where
  | unknownPlatform (platform : String)
  | noMatch (platform : String) (selector : Selector)
deriving DecidableEq

namespace ResolutionError

def message : ResolutionError → String
  | unknownPlatform platform => "no versions loaded for platform " ++ Text.quoted platform
  | noMatch platform selector => "no " ++ platform ++ " version matches " ++ selector.describe

end ResolutionError

namespace Resolution

variable {α : Type}

/-- Numbers below this one resolve to a newer version rather than to none. -/
def legacyLimit : VersionNumber := ⟨1, 12, 0⟩

def above (table : List (VersionNumber × α)) (n : VersionNumber) : List (VersionNumber × α) :=
  table.filter fun e => KeyOrder.before n e.1

def below (table : List (VersionNumber × α)) (n : VersionNumber) : List (VersionNumber × α) :=
  table.filter fun e => KeyOrder.before e.1 n

def byNumber (table : List (VersionNumber × α)) (n : VersionNumber) : Option α :=
  let legacy := if KeyOrder.before n legacyLimit then (above table n).head? else none
  let patch := (above table n).find? fun e => e.1.majorMinor == n.majorMinor
  Table.get? table n <|> ((patch <|> (below table n).getLast? <|> legacy).map Prod.snd)

def firstLeast (measure : α → Int) (values : List α) : Option α :=
  values.foldl (fun best v => if best.all (measure v < measure ·) then some v else best) none

def lastGreatest (measure : α → Int) (values : List α) : Option α :=
  values.foldl (fun best v => if best.all (measure · ≤ measure v) then some v else best) none

def byDataVersion (dataVersion : α → Int) (values : List α) (d : Int) : Option α :=
  (values.filter fun v => dataVersion v = d).getLast?
    <|> firstLeast dataVersion (values.filter fun v => d < dataVersion v)
    <|> lastGreatest dataVersion (values.filter fun v => dataVersion v < d)

def resolve (dataVersion : α → Int) (table : List (VersionNumber × α)) : Selector → Option α
  | .number n => byNumber table n
  | .dataVersion d => byDataVersion dataVersion (table.map Prod.snd) d

end Resolution

end BlockConvert
