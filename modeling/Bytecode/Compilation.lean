import Bytecode.Diagnostic
import Bytecode.UnitBuilder

/-!
# Compilation

A program becomes a unit: it is analysed, a routine is made for every function, outer functions
first, and the unit is ended. The code of each routine comes from a lowering that is handed in. A
limit of the unit format that the program exceeds is reported as a diagnostic at the function that
was in work; every other failure is passed on.

## Main definitions

* `Lowering`: what fills the routine of a function
* `Outcome`: how a compilation ends
* `Outcome.deliver`: what a client gets of it
* `compile`: compiles a program
-/

namespace Bytecode

/-- Fills the routine of a function, which is begun, up to its end. -/
abbrev Lowering := Function → Nat → Build Unit

/-- How a compilation ends. -/
inductive Outcome
  | compiled (bytes : Bytes) (entryPoints : List Text)
  | rejected (diagnostic : Diagnostic)
  | failed (error : Error)
  deriving Repr

/-- What a client keeps of its compilations: the last unit that came out, with its entry points, and
the diagnostics of all of them. -/
structure Results where
  bytes : Bytes := []
  entryPoints : List Text := []
  diagnostics : List Diagnostic := []

/-- Hands an outcome over to the client, and tells whether there is a new unit. -/
def Outcome.deliver : Outcome → EStateM Error Results Bool
  | .compiled bytes entryPoints => do
    modify fun r => { r with bytes, entryPoints }
    return true
  | .rejected diagnostic => do
    modify fun r => { r with diagnostics := r.diagnostics ++ [diagnostic] }
    return false
  | .failed error => throw error

/-- A compilation that has ended: the analysed program, what was reported, and how it ended. -/
structure Compilation where
  program : Function
  context : Context
  outcome : Outcome

/-- A unit under construction, with the function in work. -/
structure Emitting where
  unit : UnitBuilder
  current : Function

namespace Emitting

variable {α : Type}

/-- Makes a step in the construction of the unit. -/
def onUnit (step : Build α) : EStateM Error Emitting α := fun s =>
  match step s.unit with
  | .ok x unit => .ok x { s with unit }
  | .error e unit => .error e { s with unit }

/-- Makes the routine of a function. -/
def function (lower : Lowering) (f : Function) : EStateM Error Emitting Unit := do
  modify fun s => { s with current := f }
  let id ← onUnit (Build.openFunction f)
  onUnit (lower f id)
  onUnit (Build.endRoutine id)

/-- Makes the unit of a program. -/
def program (lower : Lowering) (f : Function) : EStateM Error Emitting (Bytes × List Text) := do
  onUnit Build.begin
  f.preorder.forM (function lower)
  onUnit Build.finish
  return (← onUnit Build.toBytes, (← get).unit.entryPoints)

end Emitting

/-- The size of a program, with all inner functions. -/
def Function.treeSize (f : Function) : TreeSize where
  nodes := f.geometry.nodes.toUInt64
  maxDepth := f.geometry.depth.toUInt64
  functions := f.preorder.length.toUInt64

/-- Reports an exceeded limit at the function in work, and passes every other failure on. -/
def Outcome.ofError (unitName : Text) (current : Function) (e : Error) : Outcome :=
  match e with
  | .unsupported function limit => .rejected {
      message := limit.text
      function
      file := unitName
      line := current.line
      col := current.col }
  | e => .failed e

/-- Makes the unit of an analysed program, as a stage of compilation. -/
def emitProgram (lower : Lowering) (unitName : Text) (program : Function) (strict : Bool)
    (context : Context) : Compilation :=
  let context := context.measure (·.start "Emit")
  let unit := UnitBuilder.new context unitName unitName strict
  match Emitting.program lower program ⟨unit, program⟩ with
  | .ok (bytes, entryPoints) s =>
    ⟨program, s.unit.context.measure (·.stop "Emit"), .compiled bytes entryPoints⟩
  | .error e s =>
    ⟨program, s.unit.context.measure (·.stop "Emit"), .ofError unitName s.current e⟩

/-- Compiles a program to a unit. -/
def compile (lower : Lowering) (unitName : Text) (program : Function) (context : Context) :
    Compilation :=
  match program.analyse context with
  | .error e context => ⟨program, context, .ofError unitName program e⟩
  | .ok program context =>
    match program.attributes with
    | .error e => ⟨program, context, .ofError unitName program e⟩
    | .ok a =>
      let context := context.measure fun m => { m with tree := some program.treeSize }
      emitProgram lower unitName program a.isStrict context

end Bytecode
