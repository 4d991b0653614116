import Bytecode.Error

/-!
# Options

The switches of a compilation, which may be taken from environment variables. A switch that is
not set is off; a threshold that is not a positive integer is an error.

## Main definitions

* `Options`: the switches
* `Environment`: variables by name
* `Options.ofEnvironment`: the switches that the environment sets
* `Options.useColor`: whether diagnostics are colored
-/

namespace Bytecode

/-- The switches of a compilation. -/
structure Options where
  /-- Nodes of its own above which a function is split. -/
  splitThreshold : Nat := 32768
  /-- Whether the program is strict without a directive. -/
  strict : Bool := false
  /-- Whether a line is logged for every analysed function. -/
  logAnalysis : Bool := false
  /-- Whether every finished routine is logged. -/
  logCode : Bool := false
  /-- Whether finished units are verified. -/
  verify : Bool := false
  deriving DecidableEq, Repr, Inhabited

/-- Environment variables by name. -/
abbrev Environment := List (Text × Text)

namespace Environment

/-- The value of a variable. -/
def get? (env : Environment) (name : Text) : Option Text := env.lookup name

/-- Whether a variable is set to a word that turns a switch on. -/
def switch (env : Environment) (name : Text) : Bool := (env.get? name).any Literal.switch

end Environment

namespace Options

/-- The names of all variables that are read. -/
def variableNames : List String :=
  ["DYNAC_STRICT", "DYNAC_LOG_ANALYSIS", "DYNAC_LOG_CODEGEN", "DYNAC_VERIFY",
    "DYNAC_SPLIT_THRESHOLD", "DYNAC_COLOR"]

/-- A threshold is a positive integer. -/
def threshold (t : Text) : Except SettingFault Nat :=
  match Literal.integer t with
  | .error cause => .error (.literal cause)
  | .ok value => if value ≤ 0 then .error .notPositive else .ok value.toNat

/-- The switches that the environment sets. -/
def ofEnvironment (env : Environment) : Except Error Options := do
  let base : Options := {
    strict := env.switch "DYNAC_STRICT"
    logAnalysis := env.switch "DYNAC_LOG_ANALYSIS"
    logCode := env.switch "DYNAC_LOG_CODEGEN"
    verify := env.switch "DYNAC_VERIFY" }
  match env.get? "DYNAC_SPLIT_THRESHOLD" with
  | none => return base
  | some t =>
    match threshold t with
    | .ok splitThreshold => return { base with splitThreshold }
    | .error fault => throw (.setting "DYNAC_SPLIT_THRESHOLD" fault)

/-- Whether diagnostics are colored. -/
def useColor (env : Environment) : Bool := env.switch "DYNAC_COLOR"

end Options

end Bytecode
