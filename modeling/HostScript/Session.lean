import HostScript.Config.Basic
import HostScript.Dialect.HostText
import HostScript.Machine.Eval
import HostScript.Program.Resolve

/-!
# Sessions

A session runs a source of the dialect: it is rendered as host script, the script is compiled, and the program is executed.
`Session.run` reports what the program exchanged with its host, what it exports or why it failed, and the log. Nothing of one run
is seen by the next. Places in messages are places of the host script. Both texts are refused if they are too long for a source.
-/

namespace HostScript.Session

/-- How much a log record matters. -/
inductive Severity
  | error
  | info
  | debug
  deriving DecidableEq, Repr

/-- The name of a severity. -/
def Severity.name : Severity → String
  | .error => "ERROR"
  | .info => "INFO"
  | .debug => "DEBUG"

/-- The severities from the most to the least important. -/
def Severity.rank : Severity → Nat
  | .error => 0
  | .info => 1
  | .debug => 2

/-- A record of the log. -/
structure Record where
  severity : Severity
  text : String
  deriving DecidableEq, Repr

/-- A record as a line of the log. -/
def Record.line (record : Record) : String := s!"{record.severity.name} {record.text}"

/-- Why a text is not compiled. -/
inductive Refusal
  /-- It is too long for a source. -/
  | size
  /-- It is a host script and no program. -/
  | script (fault : Program.CompileFault)
  deriving DecidableEq, Repr

/-- The message of a refusal. -/
def Refusal.message (script : Source) : Refusal → String
  | .size => script.sizeMessage
  | .script fault => fault.message script

/-- Why a session fails. -/
inductive Failure
  /-- The source or its host script is refused. -/
  | compile (refusal : Refusal)
  /-- The program stops early. -/
  | run (halt : Machine.Halt)
  deriving Repr

/-- The message of a failure in a host script. -/
def Failure.message (script : Source) : Failure → String
  | .compile refusal => refusal.message script
  | .run (.fault fault) => fault.message script
  | .run .outOfFuel => "execution is too deep"

/-- The limit that a failed session has hit, if that is why it failed. -/
def Failure.limit? : Failure → Option LimitFault
  | .run (.fault fault) => fault.limit?
  | _ => none

/-- What comes of a session. -/
structure Report where
  /-- The host script, under the name of the source. It is empty if the source is refused. -/
  script : Source
  /-- What the program exchanged with its host, in order. -/
  events : List Machine.Event
  /-- The exports of a program that ends, or why it fails. -/
  outcome : Except Failure Value
  /-- The log, in order. -/
  log : List Record

namespace Report

/-- The values that the program wrote. -/
def outputs (report : Report) : List Value := Machine.Event.outputs report.events

/-- The prompts that the program showed. -/
def prompts (report : Report) : List String := Machine.Event.prompts report.events

/-- The line that tells of a failure. -/
def failureText? (report : Report) : Option String :=
  match report.outcome with
  | .ok _ => none
  | .error failure => some ("Error: " ++ failure.message report.script)

/-- The log up to a severity, with the failure at its end. -/
def logUpTo (report : Report) (severity : Severity) : List Record :=
  let failure := report.failureText?.toList.map fun text => ⟨.error, text⟩
  (report.log ++ failure).filter fun record => record.severity.rank ≤ severity.rank

end Report

/-- The log of a rendering. -/
def renderingLog (config : Config) (source : Source) (rendering : Dialect.Rendering) : List Record :=
  let stopped := rendering.fault.toList.map fun fault =>
    ⟨.debug, "dialect lexing stopped: " ++ fault.message source⟩
  stopped ++ [⟨.debug, s!"translated {rendering.statementCount} statements from {source.name}"⟩,
    ⟨if config.logScript then .info else .debug, s!"translated {source.name}:\n{rendering.script.text}"⟩]

/-- Executes the program of a host script. -/
def execute (config : Config) (host : Machine.Host) (answers : List String) (script : Source) (program : Program)
    (log : List Record) : Report :=
  let log := log ++ [⟨.debug, s!"compiled {program.body.stmts.length} top-level statements from {script.name}"⟩,
    ⟨.info, s!"executing {script.name}"⟩]
  let result := Machine.run host config.limits answers program
  let events := result.state.history
  match result.halt with
  | some halt => ⟨script, events, .error (.run halt), log⟩
  | none =>
    let finished := s!"finished {script.name} after {result.state.budget.steps} steps"
    ⟨script, events, .ok result.state.exports, log ++ [⟨.info, finished⟩]⟩

/-- Compiles a host script, if it is not too long for a source. -/
def compile (script : Source) : Except Refusal Program :=
  if script.Fits then (Program.ofSource script).mapError .script else .error .size

/-- Runs a source of the dialect. -/
def run (config : Config) (host : Machine.Host) (answers : List String) (source : Source) : Report :=
  if source.Fits then
    let rendering := Dialect.render source
    let log := renderingLog config source rendering
    match compile rendering.script with
    | .error refusal => ⟨rendering.script, [], .error (.compile refusal), log⟩
    | .ok program => execute config host answers rendering.script program log
  else ⟨⟨source.name, ""⟩, [], .error (.compile .size), []⟩

end HostScript.Session
