import Bytecode.Image

/-!
# Listings

The text of a unit: its names, its tables with their indices, and the instructions of every
routine.

## Main definitions

* `RoutineRecord.heading`: the line above the code of a routine
* `RoutineRecord.listing`: a routine with its code
* `Image.listing`: a whole unit
-/

namespace Bytecode

namespace RoutineRecord

/-- The line above the code of a routine. -/
def heading (r : RoutineRecord) : Text :=
  "routine " ++ r.flags.toText ++ " " ++ r.identity ++ " stack=" ++ Text.ofNat r.maxStack.toNat ++
    " locals=" ++ Text.ofNat r.maxLocals.toNat ++ "\n"

/-- A routine with its code. -/
def listing (symbols : Array Text) (r : RoutineRecord) : Except Error Text := do
  return r.heading ++ (← Code.listing symbols r.code)

end RoutineRecord

namespace Image

/-- Lines with an index in front. -/
def indexed (items : List Text) : Text :=
  items.zipIdx.flatMap fun (item, i) => "  #" ++ Text.ofNat i ++ " " ++ item ++ "\n"

/-- The line of a field. -/
def fieldLine (f : Field) : Text :=
  "  " ++ f.flags.toText ++ " " ++ f.name ++ " : " ++ f.type.name ++
    (match f.initial with
      | none => []
      | some value => " = " ++ Text.ofInt value.toInt) ++ "\n"

/-- The tables of a unit. -/
def tables (u : Image) : Text :=
  "unit " ++ u.name ++ " source=" ++ u.source ++
    " strict=" ++ (if u.strict then Text.ofString "1" else Text.ofString "0") ++
    " version=" ++ Text.ofNat u.version.toNat ++ "\n" ++
    "symbols:\n" ++ indexed u.symbols ++
    "fields:\n" ++ u.fields.flatMap fieldLine ++
    "constants:\n" ++ indexed (u.constants.map Constant.toText)

/-- The text of a unit. -/
def listing (bytes : Bytes) : Except Error Text := do
  let u ← decode bytes
  let symbols := u.symbols.toArray
  let routines ← u.routines.mapM (RoutineRecord.listing symbols)
  return u.tables ++ routines.flatten

end Image

end Bytecode
