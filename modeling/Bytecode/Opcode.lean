import Bytecode.Text

/-!
# Operation codes

The instruction set of the stack machine. An instruction is one operation code and operands of a
fixed size; the code decides which operands follow.

## Main definitions

* `Opcode`: the operations
* `OperandKind`: what may follow an operation code
* `Opcode.toByte`, `Opcode.ofByte?`: the byte of an operation
* `Opcode.isTerminal`: operations after which control does not go on

## Main results

* `Opcode.ofByte?_toByte`, `Opcode.toByte_of_ofByte?`: bytes and operations correspond
-/

namespace Bytecode

/-- An operation of the stack machine. -/
inductive Opcode
  | nop
  | pushNull
  | pushUndefined
  | pushTrue
  | pushFalse
  | pushInt
  | pushLong
  | pushNumber
  | load
  | store
  | getStatic
  | putStatic
  | arrayLoad
  | arrayStore
  | arrayLength
  | newArray
  | checkCast
  | dup
  | dup2
  | pop
  | pop2
  | swap
  | add
  | sub
  | mul
  | div
  | neg
  | convert
  | invoke
  | newScope
  | jump
  | ifTrue
  | ifFalse
  | returnValue
  | returnVoid
  deriving DecidableEq, Repr, Inhabited

/-- What follows an operation code. -/
inductive OperandKind
  /-- nothing -/
  | none
  /-- a type -/
  | type
  /-- two types -/
  | types
  /-- a type and a local slot -/
  | slot
  /-- a 32-bit integer -/
  | int32
  /-- a 64-bit integer -/
  | int64
  /-- a double-precision number -/
  | number
  /-- an index into the symbol table -/
  | symbol
  /-- a count -/
  | size
  /-- an offset in the routine -/
  | target
  deriving DecidableEq, Repr

namespace OperandKind

/-- Bytes taken by the operands. -/
def width : OperandKind → Nat
  | none => 0
  | type => 1
  | types | symbol | size => 2
  | slot => 3
  | int32 | target => 4
  | int64 | number => 8

end OperandKind

namespace Opcode

/-- All operations, in the order of their bytes. -/
def all : List Opcode :=
  [nop, pushNull, pushUndefined, pushTrue, pushFalse, pushInt, pushLong, pushNumber, load, store,
    getStatic, putStatic, arrayLoad, arrayStore, arrayLength, newArray, checkCast, dup, dup2, pop,
    pop2, swap, add, sub, mul, div, neg, convert, invoke, newScope, jump, ifTrue, ifFalse,
    returnValue, returnVoid]

/-- The byte of an operation. -/
def toByte : Opcode → UInt8
  | nop => 0x00
  | pushNull => 0x01
  | pushUndefined => 0x02
  | pushTrue => 0x03
  | pushFalse => 0x04
  | pushInt => 0x05
  | pushLong => 0x06
  | pushNumber => 0x07
  | load => 0x10
  | store => 0x11
  | getStatic => 0x12
  | putStatic => 0x13
  | arrayLoad => 0x18
  | arrayStore => 0x19
  | arrayLength => 0x1A
  | newArray => 0x1B
  | checkCast => 0x1C
  | dup => 0x20
  | dup2 => 0x21
  | pop => 0x22
  | pop2 => 0x23
  | swap => 0x24
  | add => 0x30
  | sub => 0x31
  | mul => 0x32
  | div => 0x33
  | neg => 0x34
  | convert => 0x35
  | invoke => 0x40
  | newScope => 0x41
  | jump => 0x50
  | ifTrue => 0x51
  | ifFalse => 0x52
  | returnValue => 0x60
  | returnVoid => 0x61

/-- The operation with a given byte. -/
def ofByte? (raw : UInt8) : Option Opcode := all.find? fun op => op.toByte == raw

/-- The name of an operation in listings. -/
def mnemonic : Opcode → Text
  | nop => "nop"
  | pushNull => "push.null"
  | pushUndefined => "push.undefined"
  | pushTrue => "push.true"
  | pushFalse => "push.false"
  | pushInt => "push.int"
  | pushLong => "push.long"
  | pushNumber => "push.number"
  | load => "load"
  | store => "store"
  | getStatic => "getstatic"
  | putStatic => "putstatic"
  | arrayLoad => "aload"
  | arrayStore => "astore"
  | arrayLength => "alength"
  | newArray => "newarray"
  | checkCast => "checkcast"
  | dup => "dup"
  | dup2 => "dup2"
  | pop => "pop"
  | pop2 => "pop2"
  | swap => "swap"
  | add => "add"
  | sub => "sub"
  | mul => "mul"
  | div => "div"
  | neg => "neg"
  | convert => "convert"
  | invoke => "invoke"
  | newScope => "newscope"
  | jump => "jump"
  | ifTrue => "iftrue"
  | ifFalse => "iffalse"
  | returnValue => "return"
  | returnVoid => "return.void"

/-- The operands of an operation. -/
def operands : Opcode → OperandKind
  | pushInt => .int32
  | pushLong => .int64
  | pushNumber => .number
  | load | store => .slot
  | getStatic | putStatic | invoke => .symbol
  | arrayLoad | arrayStore | newArray | checkCast => .type
  | add | sub | mul | div | neg | returnValue => .type
  | convert => .types
  | newScope => .size
  | jump | ifTrue | ifFalse => .target
  | _ => .none

/-- Control never goes on to the instruction after one of these. -/
def isTerminal : Opcode → Bool
  | jump | returnValue | returnVoid => true
  | _ => false

@[simp]
theorem ofByte?_toByte (op : Opcode) : ofByte? op.toByte = some op := by
  cases op <;> rfl

theorem toByte_of_ofByte? {raw : UInt8} {op : Opcode} (h : ofByte? raw = some op) :
    op.toByte = raw := by
  simpa using List.find?_some h

end Opcode

end Bytecode
