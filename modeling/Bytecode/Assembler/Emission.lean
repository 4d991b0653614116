import Bytecode.Assembler

/-!
# Emission

What can be asked of an assembler, instruction by instruction. An emission is not yet an
instruction: members are given by name and array operations take their type from the stack. Values
are checked and taken from the stack before the instruction is written, and results are put on it
afterwards. Nothing is undone when a request fails: values that were taken stay taken, and a void
result is refused only after the instruction has been written.

## Main definitions

* `Emission`: the requests
* `Emit.emission`: the effect of a request
-/

namespace Bytecode

/-- The arithmetic operations on two values. -/
inductive Arithmetic
  | add
  | sub
  | mul
  | div
  deriving DecidableEq, Repr

namespace Arithmetic

/-- The operation code. -/
def opcode : Arithmetic → Opcode
  | add => .add
  | sub => .sub
  | mul => .mul
  | div => .div

/-- The instruction at a type. -/
def instruction {α : Type} : Arithmetic → ValueType → Instruction α
  | add, t => ⟨.add, t⟩
  | sub, t => ⟨.sub, t⟩
  | mul, t => ⟨.mul, t⟩
  | div, t => ⟨.div, t⟩

end Arithmetic

/-- A request to an assembler. -/
inductive Emission
  | pushNull
  | pushUndefined
  | pushBoolean (value : Bool)
  | pushInt (value : Int32)
  | pushLong (value : Int64)
  | pushNumber (value : Number)
  | load (type : ValueType) (slot : UInt16)
  | store (type : ValueType) (slot : UInt16)
  | getStatic (owner name : Text) (type : ValueType)
  | putStatic (owner name : Text) (type : ValueType)
  | arrayLoad
  | arrayStore
  | arrayLength
  | newArray (type : ValueType)
  | checkCast (type : ValueType)
  | dup
  | dup2
  | pop
  | pop2
  | swap
  | arithmetic (op : Arithmetic) (type : ValueType)
  | neg (type : ValueType)
  | convert (source target : ValueType)
  | invoke (owner name : Text) (signature : Signature)
  /-- Takes the parent scope, or null, and leaves a new scope record. -/
  | newScope (size : UInt16)
  | jump (label : Nat)
  | ifTrue (label : Nat)
  | ifFalse (label : Nat)
  | returnValue
  | returnVoid
  deriving DecidableEq, Repr

namespace Emission

/-- The operation that a request writes. -/
def opcode : Emission → Opcode
  | pushNull => .pushNull
  | pushUndefined => .pushUndefined
  | pushBoolean true => .pushTrue
  | pushBoolean false => .pushFalse
  | pushInt _ => .pushInt
  | pushLong _ => .pushLong
  | pushNumber _ => .pushNumber
  | load .. => .load
  | store .. => .store
  | getStatic .. => .getStatic
  | putStatic .. => .putStatic
  | arrayLoad => .arrayLoad
  | arrayStore => .arrayStore
  | arrayLength => .arrayLength
  | newArray _ => .newArray
  | checkCast _ => .checkCast
  | dup => .dup
  | dup2 => .dup2
  | pop => .pop
  | pop2 => .pop2
  | swap => .swap
  | arithmetic op _ => op.opcode
  | neg _ => .neg
  | convert .. => .convert
  | invoke .. => .invoke
  | newScope _ => .newScope
  | jump _ => .jump
  | ifTrue _ => .ifTrue
  | ifFalse _ => .ifFalse
  | returnValue => .returnValue
  | returnVoid => .returnVoid

end Emission

namespace Emit

/-- The effect of a request on reachable code. -/
def apply : Emission → Emit Unit
  | .pushNull => do
    write ⟨.pushNull, ()⟩
    push .object
  | .pushUndefined => do
    write ⟨.pushUndefined, ()⟩
    push .object
  | .pushBoolean value => do
    write (if value then ⟨.pushTrue, ()⟩ else ⟨.pushFalse, ()⟩)
    push .boolean
  | .pushInt value => do
    write ⟨.pushInt, value⟩
    push .int
  | .pushLong value => do
    write ⟨.pushLong, value⟩
    push .long
  | .pushNumber value => do
    write ⟨.pushNumber, value⟩
    push .number
  | .load type slot => do
    let declared ← localType slot
    unless declared.isAssignable type do fail (.loadMismatch slot declared type)
    write ⟨.load, (type, slot)⟩
    push type
  | .store type slot => do
    let declared ← localType slot
    unless type.isAssignable declared do fail (.storeMismatch type declared)
    pop type
    write ⟨.store, (type, slot)⟩
  | .getStatic owner name type => do
    let symbol ← intern (SymbolTable.member owner name type.descriptor)
    write ⟨.getStatic, symbol⟩
    push type
  | .putStatic owner name type => do
    pop type
    let symbol ← intern (SymbolTable.member owner name type.descriptor)
    write ⟨.putStatic, symbol⟩
  | .arrayLoad => do
    let array ← onStack (OperandStack.peek 1)
    match array.component? with
    | none => fail (.arrayLoad array)
    | some component =>
      pop .int
      pop array
      write ⟨.arrayLoad, array⟩
      push component
  | .arrayStore => do
    let array ← onStack (OperandStack.peek 2)
    match array.component? with
    | none => fail (.arrayStore array)
    | some component =>
      pop component
      pop .int
      pop array
      write ⟨.arrayStore, array⟩
  | .arrayLength => do
    let array ← onStack (OperandStack.peek 0)
    unless array.isArray do fail (.arrayLength array)
    discard (onStack OperandStack.pop)
    write ⟨.arrayLength, ()⟩
    push .int
  | .newArray type => do
    unless type.isArray do fail (.newArray type)
    pop .int
    write ⟨.newArray, type⟩
    push type
  | .checkCast type => do
    unless type.isReference do fail (.checkCast type)
    pop .object
    write ⟨.checkCast, type⟩
    push type
  | .dup => do
    let top ← onStack (OperandStack.peek 0)
    unless top.width == 1 do fail (.dupWide top)
    write ⟨.dup, ()⟩
    push top
  | .dup2 => do
    let top ← onStack (OperandStack.peek 0)
    if top.width == 2 then
      write ⟨.dup2, ()⟩
      push top
    else
      let below ← onStack (OperandStack.peek 1)
      unless below.width == 1 do fail .dup2Split
      write ⟨.dup2, ()⟩
      push below
      push top
  | .pop => do
    discard (onStack (OperandStack.popWidth 1))
    write ⟨.pop, ()⟩
  | .pop2 => do
    let top ← onStack (OperandStack.peek 0)
    if top.width == 2 then discard (onStack OperandStack.pop)
    else
      discard (onStack (OperandStack.popWidth 1))
      discard (onStack (OperandStack.popWidth 1))
    write ⟨.pop2, ()⟩
  | .swap => do
    let top ← onStack (OperandStack.popWidth 1)
    let below ← onStack (OperandStack.popWidth 1)
    write ⟨.swap, ()⟩
    push top
    push below
  | .arithmetic op type => do
    unless type.isNumeric do fail (.arithmetic op.opcode type)
    pop type
    pop type
    write (op.instruction type)
    push type
  | .neg type => do
    unless type.isNumeric do fail (.arithmetic .neg type)
    pop type
    write ⟨.neg, type⟩
    push type
  | .convert source target => do
    if !source.isNumeric || !target.isNumeric || source == target then fail (.convert source target)
    pop source
    write ⟨.convert, (source, target)⟩
    push target
  | .invoke owner name signature => do
    signature.params.reverse.forM pop
    let symbol ← intern (SymbolTable.member owner name signature.descriptor)
    write ⟨.invoke, symbol⟩
    unless signature.result == .void do push signature.result
  | .newScope size => do
    pop .object
    write ⟨.newScope, size⟩
    push .scope
  | .jump label => do
    branch label ⟨.jump, label⟩
    terminate
  | .ifTrue label => do
    pop .boolean
    branch label ⟨.ifTrue, label⟩
  | .ifFalse label => do
    pop .boolean
    branch label ⟨.ifFalse, label⟩
  | .returnValue => do
    let type := (← get).assembler.returnType
    if type == .void then fail .valueFromVoid
    pop type
    write ⟨.returnValue, type⟩
    terminate
  | .returnVoid => do
    let type := (← get).assembler.returnType
    unless type == .void do fail (.voidFromValue type)
    write ⟨.returnVoid, ()⟩
    terminate

/-- Makes a request: the routine must be open and the end of its code reachable. -/
def emission (e : Emission) : Emit Unit := do
  guard e.opcode
  apply e

end Emit

end Bytecode
