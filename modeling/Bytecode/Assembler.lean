import Bytecode.Assembler.Fixup
import Bytecode.Locals
import Bytecode.OperandStack
import Bytecode.SymbolTable

/-!
# The assembler

The code of one routine under assembly. Instructions are encoded as they come. A jump to a label
that is bound has its offset; one to a label that is not has zeros, and the place is noted. When the
code is finished, the offsets are written over the zeros, and more code may follow. The operand
stack is followed along, so that every instruction is checked against the types it finds. After a
jump or a return nothing more can be emitted until a label is bound, and all ways to a label must
agree on the stack.

## Main definitions

* `Assembler`: code, stack, locals and labels of a routine
* `Assembly`: an assembler with the symbol table of its unit
* `Emit`: a step of assembly; a failed step may leave a part of its work behind
* `Emit.defineLocal`, `Emit.localType`: local variables
* `Emit.newLabel`, `Emit.bind`: labels
* `Assembler.finish`: the code with all its offsets
-/

namespace Bytecode

/-- What is known of a label. -/
structure LabelState where
  /-- The offset it is bound to. -/
  offset : Option Nat := none
  /-- The types on the stack at every way to it, top first. -/
  types : Option (List ValueType) := none
  /-- Whether an instruction jumps to it. -/
  referenced : Bool := false
  deriving DecidableEq, Repr, Inhabited

/-- The code of one routine under assembly. -/
structure Assembler where
  routine : Text
  returnType : ValueType
  stack : OperandStack := {}
  /-- The code so far, with zeros where an offset is missing. -/
  code : Buffer := .empty
  /-- The places where an offset is missing, newest first. -/
  fixups : List Fixup := []
  fillable : Fixup.Fillable code fixups := by exact Fixup.Fillable.empty
  /-- The instructions that the code encodes, newest first, with labels as jump targets. They are
  kept to say what the code means; no step looks at them. -/
  newest : List (Instruction Nat) := []
  size_eq : code.size = Code.size newest := by rfl
  locals : Locals := {}
  labels : Array LabelState := #[]
  isOpen : Bool := false
  /-- Whether control can reach the end of the code. -/
  reachable : Bool := true

/-- An assembler with the symbol table of its unit. -/
structure Assembly where
  assembler : Assembler
  symbols : SymbolTable

/-- A step of assembly: a value or a failure, and what it leaves behind. -/
abbrev Emit (α : Type) := EStateM Error Assembly α

namespace Assembler

/-- An assembler without code. -/
def new (routine : Text) (returnType : ValueType) : Assembler := { routine, returnType }

/-- The instructions in order. -/
def instructions (a : Assembler) : List (Instruction Nat) := a.newest.reverse

/-- Bytes of code so far. -/
def size (a : Assembler) : Nat := a.code.size

/-- The offset to which a label is bound. -/
def offset? (a : Assembler) (label : Nat) : Option Nat := a.labels[label]?.bind LabelState.offset

/-- The offset to which a label is bound, and zero if it is not bound. -/
def offsetOf (a : Assembler) (label : Nat) : UInt32 := ((a.offset? label).getD 0).toUInt32

/-- The label of a jump whose offset is not known yet. -/
def missing? (a : Assembler) (i : Instruction Nat) : Option Nat :=
  i.target?.filter fun label => (a.offset? label).isNone

/-- The places where an offset is missing after one more instruction. The offset in a jump comes
after its operation byte. -/
def noted (a : Assembler) (i : Instruction Nat) : List Fixup :=
  match a.missing? i with
  | some label => ⟨a.size + 1, label⟩ :: a.fixups
  | none => a.fixups

theorem fillable_append (a : Assembler) (i : Instruction Nat) :
    Fixup.Fillable (a.code.append (i.map a.offsetOf).encode) (a.noted i) := by
  unfold noted
  split
  · next label hmissing =>
    exact a.fillable.noted (Option.eq_some_of_filter_eq_some hmissing) a.offsetOf
  · exact a.fillable.append _

/-- The code with one more instruction. -/
def append (a : Assembler) (i : Instruction Nat) : Assembler :=
  { a with
    code := a.code.append (i.map a.offsetOf).encode
    fixups := a.noted i
    fillable := a.fillable_append i
    newest := i :: a.newest
    size_eq := by simp [Code.size, a.size_eq, Nat.add_comm] }

/-- The first label that an instruction jumps to and that is not bound. -/
def unbound? (a : Assembler) : Option Nat :=
  a.labels.findIdx? fun l => l.referenced && l.offset.isNone

/-- The code with all its offsets, once control cannot leave it at the end and all jumps have a
target. -/
def patched (a : Assembler) : Except Error Buffer :=
  if a.reachable then .error (.typing a.routine .fallsOff)
  else match a.unbound? with
    | some label => .error (.typing a.routine (.unboundLabel label))
    | none => Fixup.patch a.offsetOf a.code a.fixups

theorem patched_eq_ok {a : Assembler} {code : Buffer} (h : a.patched = .ok code) :
    a.reachable = false ∧ a.unbound? = none ∧
      Fixup.patch a.offsetOf a.code a.fixups = .ok code := by
  unfold patched at h
  split at h
  · cases h
  · next hdead =>
    split at h
    · cases h
    · next hbound => exact ⟨by simpa using hdead, hbound, h⟩

/-- The bytes of the finished code. -/
def finish (a : Assembler) : Except Error Bytes := a.patched.map Buffer.bytes

/-- The assembler with the finished code, in which no offset is missing. -/
def complete (a : Assembler) : Except Error Assembler :=
  match h : a.patched with
  | .ok code => .ok { a with
      code
      fixups := []
      fillable := a.fillable.patched (patched_eq_ok h).2.2
      size_eq := (a.fillable.size_patched (patched_eq_ok h).2.2).trans a.size_eq }
  | .error e => .error e

/-- Defines a local in the next free slots; its first slot is the number of slots before it. -/
def defineLocal (a : Assembler) (t : ValueType) : Except Error (UInt16 × Assembler) :=
  if t == .void then .error (.typing a.routine .voidLocal)
  else if 65535 < a.locals.slots + t.width then .error (.unsupported a.routine .locals)
  else .ok (a.locals.slots.toUInt16, { a with locals := a.locals.define t })

@[simp] theorem instructions_append (a : Assembler) (i : Instruction Nat) :
    (a.append i).instructions = a.instructions ++ [i] := by
  simp [instructions, append]

end Assembler

namespace Emit

variable {α : Type}

/-- Changes the assembler. -/
@[inline] def update (f : Assembler → Assembler) : Emit Unit :=
  modify fun s => { s with assembler := f s.assembler }

/-- Fails because of the types in the code. -/
def fail (fault : TypingFault) : Emit α := do throw (.typing (← get).assembler.routine fault)

/-- Fails because of the state of the routine. -/
def refuse (fault : RoutineFault) : Emit α := do throw (.routine (← get).assembler.routine fault)

/-- Makes a request of the operand stack. -/
def onStack (request : OnStack α) : Emit α := fun s =>
  match request s.assembler.stack with
  | .ok (x, stack) => .ok x { s with assembler := { s.assembler with stack } }
  | .error fault => .error (.stack s.assembler.routine fault s.assembler.stack.shape) s

/-- Pushes a value. -/
def push (t : ValueType) : Emit Unit := onStack (OperandStack.push t)

/-- Takes a value that is usable at type `t`. -/
def pop (t : ValueType) : Emit Unit := discard (onStack (OperandStack.popAs t))

/-- Finds the index of a reference in the symbol table. -/
def intern (text : Text) : Emit UInt16 := fun s =>
  match s.symbols.intern text with
  | .ok (i, symbols) => .ok i { s with symbols }
  | .error e => .error e s

/-- Refuses an instruction when the routine is closed or its code has ended. -/
def guard (op : Opcode) : Emit Unit := do
  unless (← get).assembler.isOpen do refuse .notStarted
  unless (← get).assembler.reachable do fail (.unreachable op)

/-- Writes an instruction. -/
def write (i : Instruction Nat) : Emit Unit := update (·.append i)

/-- Ends a stretch of code: control does not go on from here. -/
def terminate : Emit Unit := update fun a => { a with reachable := false }

/-- Lets instructions in. -/
def openCode : Emit Unit := update fun a => { a with isOpen := true }

/-- Keeps further instructions out. -/
def close : Emit Unit := update fun a => { a with isOpen := false }

/-- Defines a local in the next free slots and returns its first slot. -/
def defineLocal (t : ValueType) : Emit UInt16 := fun s =>
  match s.assembler.defineLocal t with
  | .ok (slot, assembler) => .ok slot { s with assembler }
  | .error e => .error e s

/-- The type of the local that starts at a slot. -/
def localType (slot : UInt16) : Emit ValueType := do
  match (← get).assembler.locals.type? slot.toNat with
  | some t => return t
  | none => fail (.noLocal slot)

/-- Makes a new label. -/
def newLabel : Emit Nat := do
  let label := (← get).assembler.labels.size
  update fun a => { a with labels := a.labels.push {} }
  return label

/-- What is known of a label. -/
def labelState (label : Nat) : Emit LabelState := do
  match (← get).assembler.labels[label]? with
  | some state => return state
  | none => refuse .foreignLabel

/-- Changes what is known of a label. -/
def updateLabel (label : Nat) (f : LabelState → LabelState) : Emit Unit :=
  update fun a => { a with labels := a.labels.modify label f }

/-- Requires the stack to agree with the other ways to a label; the first way fixes it. -/
def merge (label : Nat) (state : LabelState) : Emit Unit := do
  let types := (← get).assembler.stack.types
  match state.types with
  | none => updateLabel label fun l => { l with types := some types }
  | some other =>
    unless other == types do fail (.shapeMismatch types.reverse other.reverse)

/-- Binds a label to the end of the code. When no control comes from above, the stack is taken
from the jumps to the label, and is empty if there are none. -/
def bind (label : Nat) : Emit Unit := do
  let state ← labelState label
  if state.offset.isSome then refuse .labelBoundTwice
  if (← get).assembler.reachable then merge label state
  else
    let types := state.types.getD []
    onStack (OperandStack.restore types.reverse)
    updateLabel label fun l => { l with types := some types }
    update fun a => { a with reachable := true }
  let size := (← get).assembler.size
  updateLabel label fun l => { l with offset := some size }

/-- Writes a jump to a label. -/
def branch (label : Nat) (i : Instruction Nat) : Emit Unit := do
  let state ← labelState label
  merge label state
  updateLabel label fun l => { l with referenced := true }
  write i

/-- Completes the code and returns its bytes. More code may follow. -/
def finish : Emit Bytes := fun s =>
  match s.assembler.complete with
  | .ok assembler => .ok assembler.code.bytes { s with assembler }
  | .error e => .error e s

end Emit

end Bytecode
