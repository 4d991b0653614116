import Bytecode.Compilation

/-!
# A sample program

A small program, compiled and listed. Its functions are

    function counter(start) { var n = start; return function tick() { n = n + 1; return n; }; }

and each of them is lowered to code that returns its own name.

## Main definitions

* `Sample.program`: the program
* `Sample.lowering`: code that returns the name of a function
* `Sample.run`: what the tool prints in a given environment
-/

namespace Bytecode.Sample

/-- `function tick() { n = n + 1; return n; }` -/
def tick : Function where
  form := .expression
  name := "tick"
  line := 1
  body := [
    .expr (.assign (.name "n") (.binary .add (.name "n") (.number ⟨0x3FF0000000000000⟩))),
    .ret (.name "n")]

/-- `function counter(start) { var n = start; return function tick() { ... }; }` -/
def counter : Function where
  name := "counter"
  params := [Text.ofString "start"]
  line := 1
  functions := [tick]
  body := [.var "n" (.name "start"), .ret (.function (some 0))]

/-- The program that declares `counter`. -/
def program : Function where
  form := .program
  functions := [counter]
  body := [.function (some 0)]

/-- The name under which a function is known in its own code. -/
def label (f : Function) : Text := if f.isProgram then "<program>" else f.name

/-- Every function returns its own name. -/
def lowering : Lowering := fun f id => do
  Build.loadConstant id (.string (label f))
  Build.emission id .returnValue

/-- What a run of the tool leaves behind. -/
structure Output where
  exitCode : Nat
  stdout : Text := []
  stderr : Text := []

/-- The line of an entry point. -/
def entryLine (identity : Text) : Text := "entry " ++ identity ++ "\n"

/-- Compiles the sample with the options of an environment and lists the unit. -/
def run (env : Environment) : Except Error Output :=
  match Options.ofEnvironment env with
  | .error e => .ok { exitCode := 2, stderr := "emit_sample: " ++ e.message ++ "\n" }
  | .ok options =>
    let context : Context := { options, log := some [], metrics := some {} }
    let c := compile lowering "sample" program context
    let log := c.context.logText
    match c.outcome.deliver {} with
    | .error e _ => .error e
    | .ok false results =>
      let shown := results.diagnostics.flatMap fun d => d.print (Options.useColor env)
      .ok { exitCode := 1, stderr := log ++ shown }
    | .ok true results => do
      let listing ← Image.listing results.bytes
      let metrics := (c.context.metrics.getD {}).text
      return {
        exitCode := 0
        stdout := listing ++ results.entryPoints.flatMap entryLine ++ metrics
        stderr := log }

end Bytecode.Sample
