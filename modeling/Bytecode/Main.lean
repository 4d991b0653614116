import Bytecode.Sample

/-!
# The command line

Compiles the sample program with the options that the environment sets, and prints the unit.
-/

open Bytecode

/-- The variables that are set. -/
def readEnvironment : List String → IO Environment
  | [] => return []
  | name :: rest => do
    let others ← readEnvironment rest
    match ← IO.getEnv name with
    | some value => return (Text.ofString name, Text.ofString value) :: others
    | none => return others

/-- Writes text to a stream. -/
def writeText (stream : IO.FS.Stream) (t : Text) : IO Unit := stream.write ⟨t.toArray⟩

def main : IO UInt32 := do
  let env ← readEnvironment Options.variableNames
  match Sample.run env with
  | .ok output =>
    writeText (← IO.getStdout) output.stdout
    writeText (← IO.getStderr) output.stderr
    return output.exitCode.toUInt32
  | .error e =>
    writeText (← IO.getStderr) e.message
    return 134
