import Bytecode.Context
import Bytecode.Scope.Walk
import Bytecode.Tree.Geometry

/-!
# Scope analysis

Which function needs what at run time. Declarations are collected from the outside to the inside,
names are resolved from the inside to the outside, and the attributes of each function follow from
what was found, inner functions first. Functions around the one that is analysed are left alone.

## Main definitions

* `Function.deriveAttributes`: the attributes of a function
* `Function.finalize`: the attributes of a function and of all inside it
* `Place.analyse`: analyses a function that stands in others
* `Function.analyse`: analyses a tree
-/

namespace Bytecode

namespace Function

/-- The attributes of a function, by what was found. -/
def deriveAttributes (f : Function) (options : Options) (found : Findings) : Attributes :=
  let anyEval := found.eval || found.innerEval
  let needsParentScope := found.outside || anyEval
  let usesSelfSymbol := f.form == .expression && !f.isAnonymous &&
    !found.declarations.contains f.name && (found.self || anyEval)
  { hasEval := found.eval
    isVarArg := found.arguments || found.manyParams || found.eval
    needsParentScope
    hasScopeBlock := found.captured || anyEval || found.manyParams
    usesSelfSymbol
    needsCallee :=
      (found.arguments && !found.strict) || needsParentScope || usesSelfSymbol || anyEval
    allVarsInScope := anyEval
    isSplit := options.splitThreshold < f.ownGeometry.nodes
    isStrict := found.strict }

/-- The line that is logged for an analysed function. -/
def analysisLine (f : Function) (a : Attributes) : Text :=
  "analysis: " ++ (if f.isProgram then Text.ofString "<program>" else f.name) ++ " " ++
    a.toText ++ "\n"

/-- Counts and logs an analysed function. -/
def reportAnalysis (f : Function) (a : Attributes) (c : Context) : Context :=
  let c := c.count "analysis.functions" 1
  let c := if a.hasEval then c.count "analysis.eval_functions" 1 else c
  let c := if a.isSplit then c.count "analysis.split_functions" 1 else c
  if c.tracesAnalysis then c.write (f.analysisLine a) else c

/-- Gives a function its facts, by what was found. -/
def conclude (f : Function) (found : Findings) : EStateM Error Context Function := do
  let a := f.deriveAttributes (← get).options found
  if let some rule := a.violated? then throw (.attributes f.name rule a)
  modify (f.reportAnalysis a)
  return { f with facts := some ⟨a, found.declarations.ordered⟩ }

mutual

/-- Gives a function and all inside it their facts, inner functions first. -/
def finalize (table : Table) (address : Address) : Function → EStateM Error Context Function
  | ⟨form, name, params, strict, line, col, functions, body, facts⟩ => do
    let functions ← finalizeAll table address 0 [] functions
    let f : Function := ⟨form, name, params, strict, line, col, functions, body, facts⟩
    match table[address]? with
    | some found => f.conclude found
    | none => return f

/-- Gives the functions inside the one at `address` their facts, from a position on; those in `done`
come before them and are kept last first. -/
def finalizeAll (table : Table) (address : Address) (position : Nat) (done : List Function) :
    List Function → EStateM Error Context (List Function)
  | [] => return done.reverse
  | f :: rest => do
    let f ← finalize table (position :: address) f
    finalizeAll table address (position + 1) (f :: done) rest

end

end Function

/-- Analyses a function and all inside it, as a stage of compilation. The functions `around` it are
not analysed. One that was analysed before is kept. -/
def Place.analyse (here : Place) (around : List Place) : EStateM Error Context Function := do
  if here.function.facts.isSome then return here.function
  modify (·.measure (·.start "Analyze"))
  let strict := (← get).options.strict
  let collected := Table.collect strict here.address ∅ here.function
  let table := collected.resolve here.address around here.function
  Context.ending "Analyze" (here.function.finalize table here.address)

namespace Function

/-- Analyses a tree. -/
def analyse (f : Function) : EStateM Error Context Function := Place.analyse ⟨[], f⟩ []

/-- The attributes of an analysed function. -/
def attributes (f : Function) : Except Error Attributes :=
  match f.facts with
  | some facts => .ok facts.attributes
  | none => .error (.notAnalysed f.name)

end Function

end Bytecode
