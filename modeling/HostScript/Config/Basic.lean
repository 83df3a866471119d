import HostScript.Budget
import HostScript.Number.Text
import HostScript.Outline

/-!
# Configuration

The settings of a session, each with a default, and how they are written.
-/

namespace HostScript

/-- The settings of a session. -/
structure Config where
  /-- The greatest number of statements and turns of loops in a run. -/
  maxSteps : Option Nat := none
  /-- The greatest number of script functions open at once. -/
  maxCallDepth : Nat := 64
  /-- The greatest time of a run in milliseconds, without the time spent waiting for input. -/
  timeLimitMs : Option Nat := none
  /-- Whether the host script of a run is logged as information. -/
  logScript : Bool := false
  deriving DecidableEq, Repr

namespace Config

/-- The settings by name. -/
inductive Field
  | maxSteps
  | maxCallDepth
  | timeLimitMs
  | logScript
  deriving DecidableEq, Repr

/-- The settings in the order in which they are written. -/
def fields : List Field := [.maxSteps, .maxCallDepth, .timeLimitMs, .logScript]

/-- The name of a setting. -/
def Field.name : Field → String
  | .maxSteps => "max_steps"
  | .maxCallDepth => "max_call_depth"
  | .timeLimitMs => "time_limit_ms"
  | .logScript => "log_translation"

/-- The setting of a name. -/
def Field.ofName? (name : String) : Option Field := fields.find? fun f => f.name == name

/-- The number of steps between two readings of the clock. -/
def checkInterval : Nat := 256

/-- The limits that the settings put on a run. -/
def limits (config : Config) : Limits :=
  ⟨config.maxSteps, config.maxCallDepth, config.timeLimitMs.map (· * nanosPerMilli), checkInterval⟩

/-- An optional natural number as data. -/
def optionText : Option Nat → String
  | none => "null"
  | some n => Number.integerText n

/-- A setting as data. -/
def fieldText (config : Config) : Field → String
  | .maxSteps => optionText config.maxSteps
  | .maxCallDepth => Number.integerText config.maxCallDepth
  | .timeLimitMs => optionText config.timeLimitMs
  | .logScript => if config.logScript then "true" else "false"

/-- The settings as data on one line. -/
def compact (config : Config) : String :=
  "\x7b" ++ ",".intercalate (fields.map fun f => "\"" ++ f.name ++ "\":" ++ config.fieldText f) ++ "\x7d"

/-- The outline of a setting. -/
def fieldOutline (config : Config) : Field → Outline
  | .maxSteps => .option (config.maxSteps.map fun n => .leaf (Number.integerText n))
  | .maxCallDepth => .leaf (Number.integerText config.maxCallDepth)
  | .timeLimitMs => .option (config.timeLimitMs.map fun n => .leaf (Number.integerText n))
  | .logScript => .bool config.logScript

/-- The outline of the settings. -/
def outline (config : Config) : Outline :=
  .record "ExecutorConfig" (fields.map fun f => (f.name, config.fieldOutline f))

end Config

end HostScript
