import Bytecode.Metrics
import Bytecode.Options

/-!
# Compilation contexts

What analysis and emission share: the options, and where they report to. Both the log and the
metrics may be absent, and a report to an absent one is dropped.

## Main definitions

* `Context`: options, log and metrics
* `Context.write`, `Context.count`, `Context.gauge`: reports
* `Context.tracesAnalysis`, `Context.tracesCode`: whether something is traced
* `Context.ending`: the end of a timed stage
-/

namespace Bytecode

/-- Options, and where to report. -/
structure Context where
  options : Options := {}
  /-- What was logged, newest first. -/
  log : Option (List Text) := none
  metrics : Option Metrics := none

namespace Context

/-- The whole log. -/
def logText (c : Context) : Text := (c.log.getD []).reverse.flatten

/-- Writes to the log. -/
def write (c : Context) (t : Text) : Context := { c with log := c.log.map (t :: ·) }

/-- Changes the metrics. -/
def measure (c : Context) (f : Metrics → Metrics) : Context := { c with metrics := c.metrics.map f }

/-- Adds to a counter. -/
def count (c : Context) (key : Text) (amount : UInt64) : Context := c.measure (·.count key amount)

/-- Sets a gauge. -/
def gauge (c : Context) (key : Text) (value : UInt64) : Context := c.measure (·.gauge key value)

/-- Whether analysed functions are logged. -/
def tracesAnalysis (c : Context) : Bool := c.options.logAnalysis && c.log.isSome

/-- Whether finished routines are logged. -/
def tracesCode (c : Context) : Bool := c.options.logCode && c.log.isSome

/-- Stops the timer of a stage after a step, also when the step fails. -/
def ending {α : Type} (stage : Text) (step : EStateM Error Context α) : EStateM Error Context α :=
  fun c =>
    match step c with
    | .ok x c => .ok x (c.measure (·.stop stage))
    | .error e c => .error e (c.measure (·.stop stage))

@[simp] theorem options_write (c : Context) (t : Text) : (c.write t).options = c.options := rfl
@[simp] theorem options_measure (c : Context) (f : Metrics → Metrics) :
    (c.measure f).options = c.options := rfl
@[simp] theorem metrics_write (c : Context) (t : Text) : (c.write t).metrics = c.metrics := rfl
@[simp] theorem log_measure (c : Context) (f : Metrics → Metrics) : (c.measure f).log = c.log := rfl

end Context

end Bytecode
