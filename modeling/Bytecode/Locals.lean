import Bytecode.ValueType

/-!
# Local variables

Locals take consecutive slots in the order of their definition. A wide value takes two, and the
second one cannot be reached on its own.

## Main definitions

* `Locals`: the slots handed out so far
* `Locals.define`: a new local in the next slots
* `Locals.type?`: the type of the local that starts at a slot
-/

namespace Bytecode

/-- The slots handed out so far, newest first; the upper half of a wide value is marked `void`. -/
structure Locals where
  newest : List ValueType := []
  slots : Nat := 0
  slots_eq : slots = newest.length := by rfl

namespace Locals

/-- What stands in each slot. -/
def toList (l : Locals) : List ValueType := l.newest.reverse

/-- The slots of a new local, newest first. -/
def slotsFor (t : ValueType) : List ValueType := if t.width = 2 then [.void, t] else [t]

/-- The locals after a new one of type `t`, whose slot is the number of slots before it. -/
def define (l : Locals) (t : ValueType) : Locals where
  newest := slotsFor t ++ l.newest
  slots := l.slots + (slotsFor t).length
  slots_eq := by simp [l.slots_eq, Nat.add_comm]

/-- The type of the local that starts at a slot. -/
def type? (l : Locals) (slot : Nat) : Option ValueType :=
  if slot < l.slots then
    match l.newest[l.slots - 1 - slot]? with
    | some .void => none
    | t => t
  else none

@[simp]
theorem toList_define (l : Locals) (t : ValueType) :
    (l.define t).toList = l.toList ++ (slotsFor t).reverse := by
  simp [toList, define]

end Locals

end Bytecode
