import Std.Data.TreeSet
import Bytecode.Constant.Pool
import Bytecode.FieldTable
import Bytecode.Image.Listing
import Bytecode.Image.Verify
import Bytecode.Routine
import Bytecode.Scope.Analysis

/-!
# Unit construction

A unit is begun, filled with fields and routines, and ended. Routines may be under construction
side by side; each of them has to end before the unit does. Ending the unit adds the accessor
routines for constants, encodes the unit and verifies it if that is wanted. When ending fails, the
unit stays as it was, so that it can be mended and ended again.

## Main definitions

* `UnitBuilder`: a unit under construction
* `UnitBuilder.rollBack`: the unit as far as it had come at a checkpoint
* `Build`: a step of construction; a failed step may leave a part of its work behind
* `Build.begin`, `Build.finish`: the life of a unit
* `Build.routine`, `Build.openRoutine`: new routines
* `Build.beginRoutine`, `Build.endRoutine`: the life of a routine
* `Build.emission`, `Build.loadConstant`: code of a routine
-/

namespace Bytecode

/-- A unit under construction. Routines are known by their position. -/
structure UnitBuilder where
  context : Context
  name : Text
  source : Text
  strict : Bool
  phase : Phase := .notStarted
  symbols : SymbolTable
  pool : Pool
  fields : FieldTable
  routines : Array Routine := #[]
  /-- Routines that are begun and not ended, newest first. -/
  openRoutines : List Nat := []
  /-- The identities of all routines. -/
  identities : Std.TreeSet Text := ∅
  /-- Ended routines, in the order in which they ended. -/
  finished : Array RoutineRecord := #[]
  /-- The encoded unit, once it has ended. -/
  bytes : Bytes := []

/-- How far a unit has come: how many routines and records it has, and its symbols. -/
structure Checkpoint where
  routines : Nat
  finished : Nat
  symbols : SymbolTable

/-- A step of construction: a value or a failure, and what it leaves behind. -/
abbrev Build (α : Type) := EStateM Error UnitBuilder α

namespace UnitBuilder

/-- The field that holds the constants. -/
def constantsField : Text := "constants"

/-- The owner of the helpers that synthesized code calls. -/
def helperOwner : Text := "dynac/Runtime"

/-- The fields of every unit. -/
def commonFields (strict : Bool) : List Field :=
  [{ flags := Flags.ofList [.isPublic, .isStatic], name := "source", type := .string },
    { flags := Flags.ofList [.isPublic, .isStatic], name := constantsField, type := .objectArray },
    { flags := Flags.ofList [.isPublic, .isStatic, .isFinal], name := "strictMode",
      type := .boolean, initial := some (if strict then 1 else 0) }]

/-- A unit with nothing but the common fields. -/
def new (context : Context) (name source : Text) (strict : Bool) : UnitBuilder where
  context
  name
  source
  strict
  symbols := .empty name
  pool := .empty name
  fields := (commonFields strict).foldl FieldTable.insert .empty

/-- The contents of the unit as they stand. -/
def image (u : UnitBuilder) : Image where
  name := u.name
  source := u.source
  strict := u.strict
  symbols := u.symbols.entries
  fields := u.fields.toList
  constants := u.pool.entries
  routines := u.finished.toList

/-- The identities of the ended routines. -/
def entryPoints (u : UnitBuilder) : List Text := u.finished.toList.map RoutineRecord.identity

/-- The names of the open routines, in the order of the routines. -/
def openNames (u : UnitBuilder) : List Text :=
  (u.openRoutines.mergeSort fun a b => a.ble b).filterMap fun id => u.routines[id]?.map Routine.name

/-- The `n`-th name to try for a routine: the wanted name itself, then with a number. -/
def candidate (base : Text) : Nat → Text
  | 0 => base
  | n + 1 => base ++ "$" ++ Text.ofNat (n + 1)

/-- The first free name from the `n`-th on, within `fuel` attempts. -/
def freeNameFrom (u : UnitBuilder) (base descriptor : Text) : (fuel n : Nat) → Text
  | 0, n => candidate base n
  | fuel + 1, n =>
    if u.identities.contains (candidate base n ++ descriptor) then
      freeNameFrom u base descriptor fuel (n + 1)
    else candidate base n

/-- The first free name for a routine with the given descriptor. There are more candidates than
identities, so one of them is free. -/
def uniqueName (u : UnitBuilder) (base descriptor : Text) : Text :=
  u.freeNameFrom base descriptor u.identities.size 0

/-- The unit after a step of assembly in a routine. -/
def putBack (u : UnitBuilder) (id : Nat) (s : Assembly) : UnitBuilder :=
  { u with
    routines := u.routines.modify id fun r => { r with assembler := s.assembler }
    symbols := s.symbols }

/-- How far the unit has come. -/
def checkpoint (u : UnitBuilder) : Checkpoint := ⟨u.routines.size, u.finished.size, u.symbols⟩

/-- The identities that are taken when routines give theirs up. -/
def release (taken : Std.TreeSet Text) (routines : List Routine) : Std.TreeSet Text :=
  routines.foldl (fun taken r => taken.erase r.identity) taken

/-- The unit without the routines and records that came after a checkpoint, and with the symbols
that it had there. The identities of these routines are free again. -/
def rollBack (u : UnitBuilder) (c : Checkpoint) : UnitBuilder :=
  { u with
    symbols := c.symbols
    routines := u.routines.take c.routines
    openRoutines := u.openRoutines.filter (· < c.routines)
    identities := release u.identities (u.routines.toList.drop c.routines)
    finished := u.finished.take c.finished }

end UnitBuilder

/-- The name under which a function gets a routine: a function without a name is known by its
line. -/
def Function.routineName (f : Function) : Text :=
  if f.isProgram then ":program" else if f.isAnonymous then "L:" ++ Text.ofInt f.line else f.name

/-- The record of a finished routine, within the limits of the format. -/
def Routine.record (r : Routine) : Except Error RoutineRecord := do
  let code ← r.assembler.finish
  if 65535 < code.length then throw (.unsupported r.function .code)
  if 65535 < r.assembler.stack.maxDepth then throw (.unsupported r.function .stack)
  if 65535 < r.assembler.locals.slots then throw (.unsupported r.function .localSlots)
  return {
    flags := r.flags
    name := r.name
    descriptor := r.signature.descriptor
    maxStack := r.assembler.stack.maxDepth.toUInt16
    maxLocals := r.assembler.locals.slots.toUInt16
    code }

/-- The phase in which a unit allows an operation. -/
def UnitOperation.phase : UnitOperation → Phase
  | begin => .notStarted
  | toBytes => .ended
  | finish | field | routine | openRoutine | beginRoutine | endRoutine => .started

namespace Build

variable {α : Type}

/-- Fails because of the state of the unit. -/
def refuse (fault : UnitFault) : Build α := do throw (.unit (← get).name fault)

/-- Continues with the value of a pure step, or with its failure. -/
def ofExcept : Except Error α → Build α
  | .ok x => pure x
  | .error e => throw e

/-- Refuses an operation in the wrong phase. -/
def requirePhase (operation : UnitOperation) : Build Unit := do
  let phase := (← get).phase
  unless phase == operation.phase do refuse (.wrongPhase operation phase)

/-- Changes the context. -/
def report (f : Context → Context) : Build Unit :=
  modify fun u => { u with context := f u.context }

/-- A routine. -/
def getRoutine (id : Nat) : Build Routine := do
  match (← get).routines[id]? with
  | some r => return r
  | none => refuse (.notOpen [])

/-- Changes a routine. -/
def updateRoutine (id : Nat) (f : Routine → Routine) : Build Unit :=
  modify fun u => { u with routines := u.routines.modify id f }

/-- Makes a step of assembly in a routine. -/
def onRoutine (id : Nat) (step : Emit α) : Build α := do
  let r ← getRoutine id
  fun u =>
    match step ⟨r.assembler, u.symbols⟩ with
    | .ok x s => .ok x (u.putBack id s)
    | .error e s => .error e (u.putBack id s)

/-- Begins the unit. -/
def begin : Build Unit := do
  requirePhase .begin
  let u ← get
  ofExcept (Wire.requireName u.name u.name)
  ofExcept (Wire.requireName u.source u.name)
  modify fun u => { u with phase := .started }

/-- Adds a field. -/
def field (f : Field) : Build Unit := do
  requirePhase .field
  let u ← get
  ofExcept (Wire.requireName f.name u.name)
  if u.fields.contains f.name then refuse (.duplicateField f.name)
  modify fun u => { u with fields := u.fields.insert f }

/-- Adds a routine, which must not have the identity of another one. -/
def add (r : Routine) : Build Nat := do
  ofExcept (Wire.requireName r.name r.function)
  ofExcept (Wire.requireName r.signature.descriptor r.function)
  if (← get).identities.contains r.identity then refuse (.duplicateRoutine r.identity)
  let id := (← get).routines.size
  modify fun u => { u with
    routines := u.routines.push r
    identities := u.identities.insert r.identity }
  return id

/-- A new routine with a given signature, not begun. -/
def routine (flags : Flags) (name : Text) (signature : Signature) : Build Nat := do
  requirePhase .routine
  add (← ofExcept (Routine.synthetic flags name signature))

/-- A new routine that runs when the unit is loaded. -/
def staticInitializer : Build Nat :=
  routine (Flags.ofList [.isStatic]) "<clinit>" { result := .void }

/-- A new routine that runs when an instance is made. -/
def instanceInitializer (params : List ValueType) : Build Nat :=
  routine (Flags.ofList [.isPublic]) "<init>" { result := .void, params }

/-- Lets code into a routine. A routine for a function starts with its prologue. -/
def beginRoutine (id : Nat) : Build Unit := do
  let r ← getRoutine id
  unless r.phase == .notStarted do throw (.routine r.name .alreadyBegun)
  requirePhase .beginRoutine
  modify fun u => { u with openRoutines := id :: u.openRoutines }
  updateRoutine id fun r => { r with phase := .started }
  onRoutine id Emit.openCode
  if let some a := r.attributes then
    let layout ← onRoutine id (Emit.prologue a r.layout r.scopeSize)
    updateRoutine id fun r => { r with layout }

/-- A new routine for a function with the given attributes, begun. -/
def openRoutine (name : Text) (a : Attributes) (paramCount scopeSize : Nat) : Build Nat := do
  requirePhase .openRoutine
  if let some rule := a.violated? then throw (.attributes name rule a)
  let descriptor := (Signature.ofAttributes a paramCount).descriptor
  let routineName := (← get).uniqueName name descriptor
  let id ← add (← ofExcept (Routine.ofFunction routineName name a paramCount scopeSize))
  beginRoutine id
  return id

/-- A new routine for an analysed function, begun. -/
def openFunction (f : Function) : Build Nat := do
  let a ← ofExcept f.attributes
  openRoutine f.routineName a f.params.length f.locals.length

/-- Makes a request of the assembler of a routine. -/
def emission (id : Nat) (e : Emission) : Build Unit := onRoutine id (Emit.emission e)

/-- The slot of a parameter of a routine. -/
def paramSlot (id index : Nat) : Build UInt16 := do ofExcept ((← getRoutine id).paramSlot index)

/-- Pushes the array of constants. -/
def loadConstants (id : Nat) : Build Unit := do
  emission id (.getStatic (← get).name UnitBuilder.constantsField .objectArray)

/-- Finds the index of a constant in the pool. -/
def intern (c : Constant) : Build Nat := fun u =>
  match u.pool.intern c with
  | .ok (i, pool) => .ok i { u with pool }
  | .error e => .error e u

/-- Asks for the accessor of a type. -/
def request (t : ValueType) : Build Unit := fun u =>
  match u.pool.request t with
  | .ok pool => .ok () { u with pool }
  | .error e => .error e u

/-- Finds the index of a reference in the symbol table. -/
def symbol (text : Text) : Build UInt16 := fun u =>
  match u.symbols.intern text with
  | .ok (i, symbols) => .ok i { u with symbols }
  | .error e => .error e u

/-- Pools a constant and pushes it, through the accessor for its type. -/
def loadConstant (id : Nat) (c : Constant) : Build Unit := do
  let index ← intern c
  request c.type
  emission id (.pushInt index.toInt32)
  let name ← ofExcept (Pool.accessorName c.type)
  let signature ← ofExcept (Pool.accessorSignature c.type)
  emission id (.invoke (← get).name name signature)

/-- Takes a routine off the open ones and keeps its record. -/
def keep (id : Nat) (record : RoutineRecord) : Build Unit := do
  requirePhase .endRoutine
  unless (← get).openRoutines.contains id do refuse (.notOpen record.name)
  modify fun u => { u with
    openRoutines := u.openRoutines.erase id
    finished := u.finished.push record }
  report (·.count "emit.routines" 1)

/-- Logs a finished routine. -/
def trace (record : RoutineRecord) : Build Unit := do
  let u ← get
  if u.context.tracesCode then
    report (·.write record.heading)
    let code ← ofExcept (Code.listing u.symbols.entries.toArray record.code)
    report (·.write code)

/-- Ends a routine: its code is complete and within the limits of the format. -/
def endRoutine (id : Nat) : Build Unit := do
  let r ← getRoutine id
  unless r.phase == .started do throw (.routine r.name .endNotStarted)
  let record ← ofExcept r.record
  onRoutine id Emit.close
  updateRoutine id fun r => { r with phase := .ended }
  trace record
  keep id record

/-- Adds a routine with the given code. -/
def synthesize (flags : List Flag) (name : Text) (signature : Signature) (code : Nat → Build Unit) :
    Build Unit := do
  let id ← routine (Flags.ofList flags) name signature
  beginRoutine id
  code id
  endRoutine id

/-- Pushes the constant whose index is the first parameter, at the given type. -/
def fetchConstant (type : ValueType) (id : Nat) : Build Unit := do
  loadConstants id
  emission id (.load .int (← paramSlot id 0))
  emission id .arrayLoad
  emission id (.checkCast type)

/-- Adds the accessor of strings or maps, which returns the constant itself. -/
def valueAccessor (flags : List Flag) (type : ValueType) : Build Unit := do
  let name ← ofExcept (Pool.accessorName type)
  let signature ← ofExcept (Pool.accessorSignature type)
  synthesize flags name signature fun id => do
    fetchConstant type id
    emission id .returnValue

/-- Adds the routine that replaces a map. -/
def mapSetter : Build Unit :=
  let signature : Signature := { result := .void, params := [.int, .map] }
  synthesize [.isPublic, .isStatic] "$setMap" signature fun id => do
    loadConstants id
    emission id (.load .int (← paramSlot id 0))
    emission id (.load .object (← paramSlot id 1))
    emission id .arrayStore
    emission id .returnVoid

/-- Adds the accessor of an array type, which returns a copy. -/
def arrayAccessor (type : ValueType) : Build Unit := do
  let name ← ofExcept (Pool.accessorName type)
  let signature ← ofExcept (Pool.accessorSignature type)
  synthesize [.isPrivate, .isStatic] name signature fun id => do
    fetchConstant type id
    emission id .dup
    emission id .arrayLength
    emission id (.invoke UnitBuilder.helperOwner "copyOf"
      { result := type, params := [type, .int] })
    emission id .returnValue

/-- Adds the accessor of a type. -/
def accessor : ValueType → Build Unit
  | .string => do
    valueAccessor [.isPrivate, .isStatic] .string
    report (·.count "emit.accessors" 1)
  | .map => do
    valueAccessor [.isPublic, .isStatic] .map
    mapSetter
    report (·.count "emit.accessors" 2)
  | type => do
    arrayAccessor type
    report (·.count "emit.accessors" 1)

/-- Adds the accessors that were asked for and encodes the unit. -/
def assemble : Build Bytes := do
  (← get).pool.accessors.forM accessor
  let u ← get
  let bytes ← ofExcept u.image.encode
  if u.context.options.verify then discard (ofExcept (Image.verify bytes))
  return bytes

/-- Makes a step that is taken back when it fails. -/
def attempt (step : Build α) : Build α := fun u =>
  match step u with
  | .ok x u' => .ok x u'
  | .error e u' => .error e (u'.rollBack u.checkpoint)

/-- Ends the unit. -/
def finish : Build Unit := do
  requirePhase .finish
  unless (← get).openRoutines.isEmpty do refuse (.openRoutines (← get).openNames)
  let bytes ← attempt assemble
  modify fun u => { u with bytes, phase := .ended }
  let constants := (← get).pool.size
  report (·.count "emit.constants" constants.toUInt64)
  report (·.gauge "emit.unit_bytes" bytes.length.toUInt64)

/-- The bytes of an ended unit. -/
def toBytes : Build Bytes := do
  requirePhase .toBytes
  return (← get).bytes

end Build

end Bytecode
