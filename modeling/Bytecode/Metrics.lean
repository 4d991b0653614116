import Std.Data.TreeMap
import Bytecode.Decimal

/-!
# Metrics

Stage timings, counters and gauges of a compilation, with a text and a JSON summary. Time is part
of the record and moves only when it is advanced. Counters and durations wrap at 64 bits; summaries
list keys in bytewise order.

## Main definitions

* `Metrics`: everything recorded so far
* `Metrics.start`, `Metrics.stop`: the timer of a stage
* `Metrics.count`, `Metrics.gauge`: counters and gauges
* `Metrics.text`, `Metrics.json`, `Metrics.hints`: the summaries
-/

namespace Bytecode

/-- Numbers by name, in bytewise order of the names. -/
abbrev Tally := Std.TreeMap Text UInt64

/-- The size of a function tree. -/
structure TreeSize where
  nodes : UInt64
  maxDepth : UInt64
  functions : UInt64
  deriving DecidableEq, Repr

/-- Everything recorded so far. -/
structure Metrics where
  /-- The time in nanoseconds. -/
  clock : Int := 0
  /-- The stages under way, with the time of their start. -/
  active : Std.TreeMap Text Int := ∅
  /-- Microseconds spent in each stage. -/
  durations : Tally := ∅
  tree : Option TreeSize := none
  counters : Tally := ∅
  gauges : Tally := ∅

namespace Metrics

/-- Lets time pass. -/
def advance (m : Metrics) (nanoseconds : Int) : Metrics :=
  { m with clock := m.clock + nanoseconds }

/-- Starts the timer of a stage, again if it is running. -/
def start (m : Metrics) (stage : Text) : Metrics :=
  { m with active := m.active.insert stage m.clock }

/-- Stops the timer of a stage and adds the whole microseconds it ran. -/
def stop (m : Metrics) (stage : Text) : Metrics :=
  match m.active[stage]? with
  | none => m
  | some since =>
    let elapsed := UInt64.ofInt (Int.tdiv (m.clock - since) 1000)
    { m with
      durations := m.durations.insert stage (m.durations.getD stage 0 + elapsed)
      active := m.active.erase stage }

/-- The value of a counter; one that was never set is zero. -/
def counter (m : Metrics) (key : Text) : UInt64 := m.counters.getD key 0

/-- Adds to a counter. -/
def count (m : Metrics) (key : Text) (amount : UInt64) : Metrics :=
  { m with counters := m.counters.insert key (m.counter key + amount) }

/-- Sets a counter. -/
def setCounter (m : Metrics) (key : Text) (value : UInt64) : Metrics :=
  { m with counters := m.counters.insert key value }

/-- Sets a gauge. -/
def gauge (m : Metrics) (key : Text) (value : UInt64) : Metrics :=
  { m with gauges := m.gauges.insert key value }

/-- Unit size in bytes above which a unit counts as large. -/
def largeUnit : UInt64 := 65536

/-- Remarks on what the numbers show. -/
def hints (m : Metrics) : List Text :=
  (if 0 < m.counter "analysis.eval_functions" then [Text.ofString "eval_present"] else []) ++
  (if 0 < m.counter "analysis.split_functions" then [Text.ofString "split_functions"] else []) ++
  (if largeUnit < m.gauges.getD "emit.unit_bytes" 0 then [Text.ofString "large_unit"] else [])

/-- A number of microseconds in milliseconds, with three places. The quotient is a
double-precision number, which is exact enough below 2 ^ 52 microseconds. -/
def milliseconds (microseconds : UInt64) : Text :=
  let (num, den) := Decimal.nearestBinary microseconds.toNat 1
  let (num, den) := Decimal.nearestBinary num (den * 1000)
  Decimal.fixed 3 (Decimal.roundDiv (num * 1000) den)

/-- The decimal numeral of a number in a tally. -/
def numeral (n : UInt64) : Text := Text.ofNat n.toNat

/-- The line of a counter or gauge. -/
def tallyLine (entry : Text × UInt64) : Text := "  " ++ entry.1 ++ "=" ++ numeral entry.2 ++ "\n"

/-- The line of a stage. -/
def stageLine (entry : Text × UInt64) : Text :=
  "  " ++ entry.1 ++ ": " ++ milliseconds entry.2 ++ " ms\n"

/-- The line of the tree size. -/
def treeLine (tree : TreeSize) : Text :=
  "  Tree: nodes=" ++ numeral tree.nodes ++ ", max_depth=" ++ numeral tree.maxDepth ++
    ", functions=" ++ numeral tree.functions ++ "\n"

/-- The text summary. -/
def text (m : Metrics) : Text :=
  Text.ofString "== Metrics ==\n" ++ m.durations.toList.flatMap stageLine ++
    m.tree.toList.flatMap treeLine ++ m.counters.toList.flatMap tallyLine ++
    m.gauges.toList.flatMap tallyLine

/-- An entry of a JSON object, on a line of its own. -/
def jsonEntry (key value : Text) : Text := "\n    \"" ++ key ++ "\": " ++ value

/-- A JSON object with one entry for each entry of a tally. -/
def jsonObject (tally : Tally) (entry : Text × UInt64 → Text) : Text :=
  "\x7b" ++ Text.joined "," (tally.toList.map entry) ++ "\n  \x7d"

/-- A tally as a member of a JSON object; an empty tally is left out. -/
def jsonTally (key : Text) (tally : Tally) : Text :=
  if tally.isEmpty then []
  else ",\n  \"" ++ key ++ "\": " ++ jsonObject tally fun (key, n) => jsonEntry key (numeral n)

/-- The tree size as a member of a JSON object. -/
def jsonTree (tree : TreeSize) : Text :=
  ",\n  \"tree\": \x7b \"nodes\": " ++ numeral tree.nodes ++ ", \"max_depth\": " ++
    numeral tree.maxDepth ++ ", \"functions\": " ++ numeral tree.functions ++ " \x7d"

/-- The hints as a member of a JSON object; no hints are left out. -/
def jsonHints (hints : List Text) : Text :=
  if hints.isEmpty then []
  else ",\n  \"hints\": [" ++ Text.joined ", " (hints.map fun hint => "\"" ++ hint ++ "\"") ++ "]"

/-- The JSON summary. Stage names are in lower case; nothing is escaped. -/
def json (m : Metrics) : Text :=
  Text.ofString "\x7b\n  \"durations_ms\": " ++
    (jsonObject m.durations fun (stage, n) => jsonEntry (Text.lower stage) (milliseconds n)) ++
    m.tree.toList.flatMap jsonTree ++ jsonTally "counters" m.counters ++
    jsonTally "gauges" m.gauges ++ jsonHints m.hints ++ Text.ofString "\n\x7d\n"

end Metrics

end Bytecode
