import BlockConvert.Decimal.Notation

set_option autoImplicit false

/-!
# Metrics

Counts of conversions and how they ended, times in microseconds, and a report of both. Both are held
in words of 64 bits: times are such words, and a count is the number itself, which is read modulo
2^64. Figures in the report are doubles: every operation rounds to the nearest one.
-/

namespace BlockConvert

structure Counters where
  conversions : Nat
  missing : Nat
  failures : Nat
  extraNeeded : Nat
  hits : Nat
  misses : Nat
  versions : Nat
deriving DecidableEq

namespace Counters

def zero : Counters := ⟨0, 0, 0, 0, 0, 0, 0⟩

def countConversion (c : Counters) : Counters := { c with conversions := c.conversions + 1 }

def countMissing (c : Counters) : Counters := { c with missing := c.missing + 1 }

def countFailure (c : Counters) : Counters := { c with failures := c.failures + 1 }

def countExtraNeeded (c : Counters) : Counters := { c with extraNeeded := c.extraNeeded + 1 }

def countHit (c : Counters) : Counters := { c with hits := c.hits + 1 }

def countMiss (c : Counters) : Counters := { c with misses := c.misses + 1 }

def countVersion (c : Counters) : Counters := { c with versions := c.versions + 1 }

/-- The counts as words hold them. -/
def held (c : Counters) : Counters :=
  let word (n : Nat) : Nat := n % UInt64.size
  ⟨word c.conversions, word c.missing, word c.failures, word c.extraNeeded, word c.hits,
    word c.misses, word c.versions⟩

open Decimal (Format Meaning)

def hitRate (c : Counters) : Meaning :=
  let hits := c.held.hits
  let asked := (hits + c.held.misses) % UInt64.size
  if asked = 0 then Format.double.nearest 0
  else
    let share := Format.double.ratio (Format.double.nearest hits) (Format.double.nearest asked)
    Format.double.divide share 1 100

end Counters

/-- Times in microseconds. -/
structure Timings where
  conversions : UInt64
  longest : UInt64
  loading : UInt64
deriving DecidableEq

structure Metrics where
  summary : String
  counters : Counters
  timings : Timings
deriving DecidableEq

namespace Metrics

def start (summary : String) : Metrics := ⟨summary, .zero, ⟨0, 0, 0⟩⟩

def wholeMicros (micros nanos : Nat) : UInt64 := UInt64.ofNat (micros + nanos / 1000)

def recordConversion (m : Metrics) (micros : UInt64) : Metrics :=
  { m with
    counters := m.counters.countConversion
    timings := { m.timings with
      conversions := m.timings.conversions + micros
      longest := max m.timings.longest micros } }

def recordVersion (m : Metrics) (micros : UInt64) : Metrics :=
  { m with
    counters := m.counters.countVersion
    timings := { m.timings with loading := m.timings.loading + micros } }

def count (m : Metrics) (f : Counters → Counters) : Metrics := { m with counters := f m.counters }

open Decimal (Format Meaning fixed)

def millis (micros : UInt64) : Meaning :=
  Format.double.divide (Format.double.nearest micros.toNat) 1000 1

def average (m : Metrics) : Meaning :=
  let conversions := m.counters.held.conversions
  if conversions = 0 then Format.double.nearest 0
  else Format.double.ratio (millis m.timings.conversions) (Format.double.nearest conversions)

def report (m : Metrics) (duration : String) : String :=
  let c := m.counters.held
  let figure (places : Nat) (v : Meaning) : String := String.ofList (fixed places v)
  "\n".intercalate
    ["Translation Report",
     "==================",
     "Configuration: " ++ m.summary,
     "Session Duration: " ++ duration,
     "",
     "[Loading]",
     "Versions Loaded: " ++ toString c.versions,
     "Total Time: " ++ figure 2 (millis m.timings.loading) ++ " ms",
     "",
     "[Translation]",
     "Translations: " ++ toString c.conversions,
     "Total Time: " ++ figure 2 (millis m.timings.conversions) ++ " ms",
     "Avg Time: " ++ figure 3 m.average ++ " ms/record",
     "Max Time: " ++ figure 3 (millis m.timings.longest) ++ " ms",
     "- Missing Specifications: " ++ toString c.missing,
     "- Failures: " ++ toString c.failures,
     "- Extra Data Needed: " ++ toString c.extraNeeded,
     "",
     "[Cache]",
     "Hits: " ++ toString c.hits,
     "Misses: " ++ toString c.misses,
     "Hit Rate: " ++ figure 1 c.hitRate ++ "%",
     ""]

end Metrics

end BlockConvert
