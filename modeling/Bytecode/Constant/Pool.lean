import Std.Data.TreeMap
import Bytecode.Constant

/-!
# Constant pools

The constants of one unit, each kept once. A constant is found again by its encoding. Code gets at
a pooled constant through an accessor routine for its type, and a pool remembers which accessors
were asked for.

## Main definitions

* `Pool`: constants in order of arrival, and requested accessors
* `Pool.intern`: the index of a constant, which is added when it is new
* `Pool.request`: asks for the accessor of a type
* `Pool.accessors`: the requested accessors, in the order of types
-/

namespace Bytecode

/-- The constants of one unit. -/
structure Pool where
  /-- The unit, to which an overflow is attributed. -/
  owner : Text
  /-- The constants, newest first. -/
  newest : List Constant
  /-- The number of constants. -/
  size : Nat
  size_eq : size = newest.length
  /-- The index of each encoding. -/
  index : Std.TreeMap Bytes Nat
  /-- The types whose accessor was asked for. -/
  requested : List ValueType

namespace Pool

/-- The pool of a unit without constants. -/
def empty (owner : Text) : Pool where
  owner
  newest := []
  size := 0
  size_eq := List.length_nil.symm
  index := ∅
  requested := []

/-- The constants, by index. -/
def entries (p : Pool) : List Constant := p.newest.reverse

/-- The index of a constant with a given encoding, which is added when it is new. -/
def internAs (p : Pool) (key : Bytes) (c : Constant) : Except Error (Nat × Pool) :=
  match p.index[key]? with
  | some i => .ok (i, p)
  | none =>
    if Wire.maxName ≤ p.size then .error (.unsupported p.owner .constants)
    else .ok (p.size, { p with
      newest := c :: p.newest
      size := p.size + 1
      size_eq := by simp [p.size_eq]
      index := p.index.insert key p.size })

/-- The index of a constant, which is added when it is new. -/
def intern (p : Pool) (c : Constant) : Except Error (Nat × Pool) := do
  p.internAs (← c.encoded) c

/-- Refuses types that no constant has. -/
def requirePoolable (t : ValueType) : Except Error Unit :=
  if t.isPoolable then .ok () else .error (.inconsistent (.noAccessor t))

/-- Asks for the accessor of a type. -/
def request (p : Pool) (t : ValueType) : Except Error Pool := do
  requirePoolable t
  return { p with requested := t :: p.requested }

/-- The types whose accessor was asked for, in the order of types. -/
def accessors (p : Pool) : List ValueType := ValueType.all.filter p.requested.contains

/-- The name of the accessor of a type. -/
def accessorName : ValueType → Except Error Text
  | .string => .ok "$getString"
  | .map => .ok "$getMap"
  | .intArray => .ok "$getInt$array"
  | .longArray => .ok "$getLong$array"
  | .numberArray => .ok "$getNumber$array"
  | .objectArray => .ok "$getObject$array"
  | t => .error (.inconsistent (.noAccessor t))

/-- An accessor takes an index and returns the constant at its type. -/
def accessorSignature (t : ValueType) : Except Error Signature := do
  requirePoolable t
  return { result := t, params := [.int] }

end Pool

end Bytecode
