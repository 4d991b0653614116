import Bytecode.Error

/-!
# Operand stacks

The types of the values on the machine's stack at a point of the code, and the greatest depth so
far in slots. A refused request leaves the stack as it was.

## Main definitions

* `OperandStack`: types on the stack, current and greatest depth
* `OnStack`: a request that either succeeds or changes nothing
* `OperandStack.push`, `pop`, `popAs`, `popWidth`, `peek`, `restore`: the requests

## Main results

* `OperandStack.depth_le_maxDepth`: the greatest depth is never exceeded
-/

namespace Bytecode

/-- The types on the stack, top first, with the current and the greatest depth in slots. -/
structure OperandStack where
  types : List ValueType := []
  depth : Nat := 0
  maxDepth : Nat := 0
  depth_eq : depth = slotsOf types := by rfl
  depth_le_maxDepth : depth ≤ maxDepth := by omega

/-- A stack request: it succeeds with a new stack, or fails and changes nothing. -/
abbrev OnStack (α : Type) := StateT OperandStack (Except StackFault) α

namespace OperandStack

/-- The shape of a stack, bottom first. -/
def shape (s : OperandStack) : List ValueType := s.types.reverse

/-- The stack with one more value. -/
def pushed (s : OperandStack) (t : ValueType) : OperandStack where
  types := t :: s.types
  depth := s.depth + t.width
  maxDepth := max s.maxDepth (s.depth + t.width)
  depth_eq := by simp [slotsOf, s.depth_eq, Nat.add_comm]
  depth_le_maxDepth := by omega

/-- The stack without its top. -/
def popped (s : OperandStack) : OperandStack where
  types := s.types.tail
  depth := s.depth - (s.types.head?.map ValueType.width).getD 0
  maxDepth := s.maxDepth
  depth_eq := by
    rw [s.depth_eq]
    cases s.types <;> simp [slotsOf]
  depth_le_maxDepth := Nat.le_trans (Nat.sub_le ..) s.depth_le_maxDepth

/-- The stack with the values of a shape, given top first, in place of its own. -/
def replaced (s : OperandStack) (types : List ValueType) : OperandStack where
  types
  depth := slotsOf types
  maxDepth := max s.maxDepth (slotsOf types)
  depth_eq := rfl
  depth_le_maxDepth := by omega

/-- Pushes a value; there is no void value. -/
def push (t : ValueType) : OnStack Unit := fun s =>
  if t == .void then .error .pushVoid else .ok ((), s.pushed t)

/-- Takes the top value. -/
def pop : OnStack ValueType := fun s =>
  match s.types with
  | [] => .error .underflow
  | t :: _ => .ok (t, s.popped)

/-- Takes the top value, which must be usable at type `expected`. -/
def popAs (expected : ValueType) : OnStack ValueType := fun s =>
  match s.types with
  | [] => .error (.underflowExpecting expected)
  | t :: _ =>
    if t.isAssignable expected then .ok (t, s.popped) else .error (.unexpected expected t)

/-- Takes the top value, which must take the given number of slots. -/
def popWidth (slots : Int) : OnStack ValueType := fun s =>
  match s.types with
  | [] => .error .underflow
  | t :: _ => if (t.width : Int) = slots then .ok (t, s.popped) else .error (.wrongWidth slots t)

/-- The type of a value, counted from the top. -/
def peek (depth : Nat) : OnStack ValueType := fun s =>
  match s.types[depth]? with
  | some t => .ok (t, s)
  | none => .error .underflow

/-- Puts the values of a shape, given bottom first, in place of those on the stack. -/
def restore (shape : List ValueType) : OnStack Unit := fun s => .ok ((), s.replaced shape.reverse)

@[simp] theorem types_pushed (s : OperandStack) (t : ValueType) :
    (s.pushed t).types = t :: s.types := rfl
@[simp] theorem types_popped (s : OperandStack) : s.popped.types = s.types.tail := rfl
@[simp] theorem types_replaced (s : OperandStack) (types : List ValueType) :
    (s.replaced types).types = types := rfl
@[simp] theorem maxDepth_popped (s : OperandStack) : s.popped.maxDepth = s.maxDepth := rfl

end OperandStack

end Bytecode
