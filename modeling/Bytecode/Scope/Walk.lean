import Bytecode.Scope.Declarations
import Bytecode.Scope.References
import Std.Data.TreeMap

/-!
# Names on their way out

A name that a function uses and does not declare is looked for in the functions around it, from the
inside to the outside. The function that declares it is captured, and all functions on the way need
the scope around them. The walk ends at a program, whose declarations belong to the global object,
and at functions that are not part of the analysis. A call of `eval` may reach every variable, so it
is noted in all functions around it.

## Main definitions

* `Place`: a function of a tree, with its address
* `Function.locate`: the place of a function, and the functions around it
* `Findings`, `Table`: what is found out about functions, by their addresses
* `Table.collect`: declarations and strictness, from the outside to the inside
* `Table.lookOutside`: the walk of one name
* `Table.resolve`: the names used in a function and in those inside it
-/

namespace Bytecode

/-- The positions that lead to a function of a tree, innermost first. -/
abbrev Address := List Nat

/-- A function of a tree. -/
structure Place where
  address : Address
  function : Function

/-- The place at a path inside the given one, and the functions around it, innermost first. -/
def Place.descend (here : Place) (around : List Place) : List Nat → Option (Place × List Place)
  | [] => some (here, around)
  | i :: path => here.function.functions[i]?.bind fun f =>
    descend ⟨i :: here.address, f⟩ (here :: around) path

/-- The place of the function at a path of a tree, and the functions around it. -/
def Function.locate (root : Function) (path : List Nat) : Option (Place × List Place) :=
  Place.descend ⟨[], root⟩ [] path

/-- What is found out about a function. -/
structure Findings where
  declarations : Declarations
  /-- Its code is strict. -/
  strict : Bool
  /-- It has too many parameters to pass each by itself. -/
  manyParams : Bool
  /-- The implicit `arguments` is used. -/
  arguments : Bool := false
  /-- A declared name is used from inside, or in the body of a `with` statement. -/
  captured : Bool := false
  /-- A function expression is used by its own name. -/
  self : Bool := false
  /-- Names are looked for outside. -/
  outside : Bool := false
  /-- `eval` is called in it. -/
  eval : Bool := false
  /-- `eval` is called in a function inside it. -/
  innerEval : Bool := false

/-- What can be noted about a function while names are resolved. -/
inductive Mark
  | arguments
  | captured
  | self
  | outside
  | eval
  | innerEval
  deriving DecidableEq, Repr

/-- Notes something about a function. -/
def Findings.note (found : Findings) : Mark → Findings
  | .arguments => { found with arguments := true }
  | .captured => { found with captured := true }
  | .self => { found with self := true }
  | .outside => { found with outside := true }
  | .eval => { found with eval := true }
  | .innerEval => { found with innerEval := true }

/-- The findings about the functions that are analysed. -/
abbrev Table := Std.TreeMap Address Findings

/-- Parameters above which arguments are passed in an array. -/
def Function.maxNamedParams : Nat := 125

/-- What is known of a function before names are resolved. -/
def Function.collected (f : Function) (strict : Bool) : Findings where
  declarations := f.declarations
  strict
  manyParams := Function.maxNamedParams < f.params.length

namespace Table

/-- Notes something about the function at an address. -/
def mark (table : Table) (address : Address) (m : Mark) : Table :=
  table.modify address (·.note m)

/-- Notes something about the functions at some addresses. -/
def markAll (table : Table) (addresses : List Address) (m : Mark) : Table :=
  addresses.foldl (·.mark · m) table

mutual

/-- Collects the declarations of a function and of all inside it; `outerStrict` is the strictness
around it. -/
def collect (outerStrict : Bool) (address : Address) (table : Table) : Function → Table
  | ⟨form, name, params, directive, line, col, functions, body, facts⟩ =>
    let f : Function := ⟨form, name, params, directive, line, col, functions, body, facts⟩
    let strict := directive || outerStrict
    collectAll strict address 0 (table.insert address (f.collected strict)) functions

/-- Collects the declarations of the functions inside the one at `address`, from a position on. -/
def collectAll (strict : Bool) (address : Address) (position : Nat) (table : Table) :
    List Function → Table
  | [] => table
  | f :: rest =>
    collectAll strict address (position + 1) (collect strict (position :: address) table f) rest

end

/-- Looks for a name in the functions around, innermost first. It was not found in those that it has
`passed`, and all of them need the scope around them. -/
def lookOutside (name : Text) (passed : List Address) (table : Table) : List Place → Table
  | [] => table.markAll passed .outside
  | up :: around =>
    match table[up.address]? with
    | none => table.markAll passed .outside
    | some found =>
      if up.function.isProgram then
        -- what a program does not declare either is looked for in the global object
        if found.declarations.contains name then table.markAll passed .outside
        else table.markAll (up.address :: passed) .outside
      else if found.declarations.contains name then
        (table.mark up.address .captured).markAll passed .outside
      else if up.function.isSelf name then
        ((table.mark up.address .captured).mark up.address .self).markAll passed .outside
      else lookOutside name (up.address :: passed) table around

/-- Resolves a use of a name in a function: it is declared there, or means the function itself, or
is looked for outside. -/
def resolveReference (here : Place) (around : List Place) (table : Table) (r : Reference) : Table :=
  match table[here.address]? with
  | none => table
  | some own =>
    if r.name == Text.ofString "arguments" && !own.declarations.shadowsArguments then
      table.mark here.address .arguments
    else if own.declarations.contains r.name then
      if r.insideWith && !here.function.isProgram then table.mark here.address .captured else table
    else if here.function.isSelf r.name then table.mark here.address .self
    else table.lookOutside r.name [here.address] around

/-- Notes a call of `eval` in the functions around. -/
def markEval (table : Table) : List Place → Table
  | [] => table
  | up :: around =>
    if table.contains up.address then (table.mark up.address .innerEval).markEval around else table

/-- Resolves the names used in a function itself. -/
def resolveOwn (here : Place) (around : List Place) (table : Table) : Table :=
  let used := here.function.references
  let table := used.toList.foldl (resolveReference here around) table
  if used.usesEval then (table.mark here.address .eval).markEval around else table

mutual

/-- Resolves the names used in a function and in all inside it, inner functions first. -/
def resolve (address : Address) (around : List Place) (table : Table) : Function → Table
  | ⟨form, name, params, strict, line, col, functions, body, facts⟩ =>
    let here : Place :=
      ⟨address, ⟨form, name, params, strict, line, col, functions, body, facts⟩⟩
    resolveOwn here around (resolveAll address 0 (here :: around) table functions)

/-- Resolves the names used in the functions inside the one at `address`, from a position on. -/
def resolveAll (address : Address) (position : Nat) (around : List Place) (table : Table) :
    List Function → Table
  | [] => table
  | f :: rest =>
    resolveAll address (position + 1) around (resolve (position :: address) around table f) rest

end

end Table

end Bytecode
