import Bytecode.Assembler.Emission
import Bytecode.Flags

/-!
# Routines

A routine of a unit under construction. Its parameters take the first local slots, in the order of
the signature. A routine made for a function takes its signature from the scope attributes of the
function, and starts by setting up what they ask for: a copy of the callee under which the function
is known to itself, and a scope record.

## Main definitions

* `Layout`: the slots with a fixed meaning
* `Routine`: name, type, slots and code of a routine
* `Routine.synthetic`: a routine with a given signature
* `Routine.ofFunction`: a routine for a function
* `Emit.prologue`: the first instructions of a routine for a function
-/

namespace Bytecode

/-- The slots with a fixed meaning. -/
structure Layout where
  callee : Option UInt16 := none
  parentScope : Option UInt16 := none
  receiver : Option UInt16 := none
  varArgs : Option UInt16 := none
  /-- The scope record of the function. -/
  scope : Option UInt16 := none
  /-- The function under its own name. -/
  self : Option UInt16 := none
  /-- The parameters. -/
  params : List UInt16 := []
  deriving DecidableEq, Repr, Inhabited

/-- A routine of a unit under construction. -/
structure Routine where
  flags : Flags
  name : Text
  signature : Signature
  /-- The scope attributes, if the routine is made for a function. -/
  attributes : Option Attributes := none
  /-- The function to which limits are attributed. -/
  function : Text
  /-- Slots in the scope record. -/
  scopeSize : Nat := 0
  layout : Layout
  phase : Phase := .notStarted
  assembler : Assembler

/-- A step that defines locals. -/
abbrev Define (α : Type) := StateT Assembler (Except Error) α

namespace Define

/-- Defines a local. -/
def slot (t : ValueType) : Define UInt16 := fun a => a.defineLocal t

/-- Defines a local if it is wanted. -/
def slotIf (wanted : Bool) (t : ValueType) : Define (Option UInt16) :=
  if wanted then some <$> slot t else pure none

/-- The slots of a routine with a given signature; one that is not static has a receiver. -/
def synthetic (flags : Flags) (signature : Signature) : Define Layout := do
  let receiver ← slotIf (!flags.has .isStatic) .object
  let params ← signature.params.mapM slot
  return { receiver, params }

/-- The slots of a routine for a function with the given attributes. -/
def function (a : Attributes) (paramCount : Nat) : Define Layout := do
  let callee ← slotIf a.needsCallee .callee
  let parentScope ← slotIf a.needsParentScope .scope
  let receiver ← slot .object
  let varArgs ← slotIf a.isVarArg .objectArray
  let params ← if a.isVarArg then pure [] else (List.replicate paramCount .object).mapM slot
  return { callee, parentScope, receiver := some receiver, varArgs, params }

end Define

namespace Routine

/-- The name and the descriptor, which together tell a routine apart. -/
def identity (r : Routine) : Text := r.name ++ r.signature.descriptor

/-- A routine with a given signature. -/
def synthetic (flags : Flags) (name : Text) (signature : Signature) : Except Error Routine := do
  let (layout, assembler) ← (Define.synthetic flags signature).run (.new name signature.result)
  return { flags, name, signature, function := name, layout, assembler }

/-- The flags of a routine for a function. -/
def functionFlags (a : Attributes) : Flags :=
  if a.isVarArg then Flags.ofList [.isPublic, .isStatic, .isVarArgs]
  else Flags.ofList [.isPublic, .isStatic]

/-- A routine for a function. Limits are attributed to the function, or to the routine when the
function has no name. -/
def ofFunction (name function : Text) (a : Attributes) (paramCount scopeSize : Nat) :
    Except Error Routine := do
  let function := if function.isEmpty then name else function
  if a.hasScopeBlock && 65535 < scopeSize then
    throw (.unsupported function (.scopeRecord scopeSize))
  let signature := Signature.ofAttributes a paramCount
  let (layout, assembler) ← (Define.function a paramCount).run (.new name signature.result)
  return {
    flags := functionFlags a
    name
    signature
    attributes := some a
    function
    scopeSize
    layout
    assembler }

/-- The slot of a parameter. -/
def paramSlot (r : Routine) (index : Nat) : Except Error UInt16 :=
  match r.layout.params[index]? with
  | some slot => .ok slot
  | none => .error (.routine r.name (.noParameter index))

end Routine

namespace Emit

/-- Copies the callee to a local of its own. -/
def selfLocal (callee : Option UInt16) : Emit UInt16 := do
  let self ← defineLocal .callee
  if let some callee := callee then
    emission (.load .callee callee)
    emission (.store .callee self)
  return self

/-- Makes a scope record, inside the parent scope if there is one. -/
def scopeLocal (parentScope : Option UInt16) (size : UInt16) : Emit UInt16 := do
  let scope ← defineLocal .scope
  match parentScope with
  | some parent => emission (.load .scope parent)
  | none => emission .pushNull
  emission (.newScope size)
  emission (.store .scope scope)
  return scope

/-- The first instructions of a routine for a function, with the slots they fill. -/
def prologue (a : Attributes) (layout : Layout) (scopeSize : Nat) : Emit Layout := do
  let self ← if a.usesSelfSymbol then some <$> selfLocal layout.callee else pure none
  let scope ←
    if a.hasScopeBlock then some <$> scopeLocal layout.parentScope scopeSize.toUInt16 else pure none
  return { layout with self, scope }

end Emit

end Bytecode
