import HostScript.Command.Basic
import HostScript.Config.Json
import HostScript.Config.Yaml
import HostScript.Script.Outline
import HostScript.Session

/-!
# Performing a command

What the command line program prints for a task, given the files it may read, the text of its standard input, and the clock. A
run that is interrupted because its input has ended prints nothing that it would not print if there were more; the same holds
for a run that is interrupted by the clock.
-/

namespace HostScript.Command

/-- What surrounds the program: the content of each file or the reason why it cannot be read, its standard input, and the clock. -/
structure Surroundings where
  content : String → Except String String
  stdin : String
  clock : Nat → Nat

/-- What keeps a run from going on that would go on in other surroundings. -/
inductive Interruption
  /-- The input has ended. -/
  | noInput
  /-- The clock has told a time beyond the limit. -/
  | timeOver (elapsed : Nat)
  deriving DecidableEq, Repr

/-- What a task prints and how it fails, if it does. -/
structure Answer where
  stdout : String
  failure : Option String := none
  interruption : Option Interruption := none
  deriving DecidableEq, Repr

/-- The text for the standard error stream. -/
def Answer.stderr (answer : Answer) : String :=
  match answer.failure with
  | none => ""
  | some message => s!"Error: {message}\n"

/-- The exit status. -/
def Answer.status (answer : Answer) : Nat := if answer.failure.isSome then 1 else 0

/-- The text of a file. -/
def readText (around : Surroundings) (file : String) : Except String String :=
  (around.content file).mapError fun reason => s!"Failed to read {file}. {reason}"

/-- The source in a file, unless its text is too long. -/
def readSource (around : Surroundings) (file : String) : Except String Source := do
  let source : Source := ⟨file, ← readText around file⟩
  if source.Fits then return source else throw source.sizeMessage

/-- The last name of a path. -/
def lastName (path : String) : List Char := (path.toList.reverse.dropWhile (· == '/')).takeWhile (· != '/') |>.reverse

/-- The extension of a path: what follows the last point of its last name, unless nothing stands before that point. -/
def extension? (path : String) : Option String :=
  let reversed := (lastName path).reverse
  match reversed.dropWhile (· != '.') with
  | _ :: _ :: _ => some (String.ofList (reversed.takeWhile (· != '.')).reverse)
  | _ => none

/-- Refuses a file that is not named as a source of the dialect. -/
def checkName (file : String) : Except String Unit :=
  if file.endsWith ".kp" then .ok () else .error s!"`{file}` is not a King Python file. Expected a .kp extension."

/-- Reads the configuration in a file, whose extension tells how it is written. -/
def readConfig (around : Surroundings) (file : String) : Except String Config := do
  let text ← readText around file
  if ["yaml", "yml"].contains ((extension? file).getD "") then
    match Config.ofYaml? text with
    | some config => return config
    | none => throw s!"invalid configuration in {file}"
  else (Config.ofJson text).mapError Config.Fault.message

/-- The configuration of a run: that of a file, if one is given, with the number of steps that the command line asks for. -/
def runConfig (around : Surroundings) (file : Option String) (maxSteps : Option Nat) : Except String Config := do
  let config ← match file with
    | some file => readConfig around file
    | none => pure {}
  return { config with maxSteps := maxSteps.or config.maxSteps }

/-- A line of input without its line end, that is without any line feeds and carriage returns at its end. -/
def trimLineEnd (line : List Char) : String :=
  String.ofList (line.reverse.dropWhile fun c => c == '\n' || c == '\r').reverse

/-- The lines of an input. The last one may lack its line feed; nothing after the last line feed is no line. `begun` holds the
characters of the line begun so far, in reverse. -/
def inputLines (begun : List Char) : List Char → List String
  | [] => if begun.isEmpty then [] else [trimLineEnd begun.reverse]
  | '\n' :: rest => trimLineEnd begun.reverse :: inputLines [] rest
  | c :: rest => inputLines (c :: begun) rest

/-- What an exchange with the host prints: values on lines of their own, prompts in front of what follows. -/
def eventText : Machine.Event → String
  | .output v => v.display ++ "\n"
  | .prompt text => text

/-- What the exports of a program print: nothing if there are none. -/
def exportsText (exports : Value) : String :=
  match exports with
  | .object ⟨_ :: _, _⟩ => exports.pretty ++ "\n"
  | _ => ""

/-- What interrupts a run that fails. -/
def interruption? : Session.Failure → Option Interruption
  | .run (.fault (.problem _ (.noAnswer _ _))) => some .noInput
  | .run (.fault (.limit (.time elapsed _))) => some (.timeOver elapsed)
  | _ => none

/-- Runs a file. -/
def runAnswer (around : Surroundings) (config : Config) (file text : String) : Answer :=
  let report := Session.run config ⟨.console, around.clock⟩ (inputLines [] around.stdin.toList) ⟨file, text⟩
  let shown := report.events.foldl (fun out event => out ++ eventText event) ""
  match report.outcome with
  | .ok exports => { stdout := shown ++ exportsText exports }
  | .error failure => ⟨shown, some (failure.message report.script), interruption? failure⟩

/-- What a task prints whose steps may fail before anything is printed. -/
def answerOf (r : Except String Answer) : Answer :=
  match r with
  | .ok answer => answer
  | .error message => { stdout := "", failure := some message }

/-- A token as it is shown: on a line of its own, with a diagnostic in front of it if asked for. -/
def tokenText (source : Source) (verbose : Bool) (token : Token) : String :=
  let place := if verbose then source.diagnostic token.span.line token.span.column "" "" ++ "\n" else ""
  s!"{place}Token({token.kind.name}, {source.showSpan token.span})\n"

/-- Shows the tokens of a source, up to the first fault. -/
def lexAnswer (verbose : Bool) (source : Source) : Answer :=
  let scan := source.scan
  let shown := scan.tokens.foldl (fun out token => out ++ tokenText source verbose token) ""
  match scan.ending with
  | .complete _ _ => { stdout := shown }
  | .stopped fault _ => { stdout := shown, failure := some (fault.message source) }

/-- Shows the syntax tree of a source's host script. -/
def parseAnswer (source : Source) : Answer :=
  let script := (Dialect.render source).script
  if script.Fits then
    match Script.Module.ofSource script with
    | .ok m => { stdout := (m.outline script).indented ++ "\n" }
    | .error fault => { stdout := "", failure := some (fault.message script) }
  else { stdout := "", failure := some script.sizeMessage }

/-- Performs a task. -/
def perform (command : Command) (around : Surroundings) : Answer :=
  match command with
  | .run file config maxSteps => answerOf do
    checkName file
    let config ← runConfig around config maxSteps
    return runAnswer around config file (← readText around file)
  | .render file => answerOf do
    checkName file
    return { stdout := (Dialect.render (← readSource around file)).script.text }
  | .lex file verbose => answerOf do
    return lexAnswer verbose (← readSource around file)
  | .parse file => answerOf do
    checkName file
    return parseAnswer (← readSource around file)

end HostScript.Command
