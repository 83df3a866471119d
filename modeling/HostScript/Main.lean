import HostScript.Command.Perform

/-!
# The command line program

Reads the arguments, the files and the standard input, and prints what `Command.perform` answers. Input is read, and the clock is
read, only when a run asks for it: the run is then repeated with what has become known, and only what it prints anew is printed.
-/

namespace HostScript.Main

/-- How the program is used. -/
def usage : String :=
  "Usage: kp run FILE [--config FILE] [--max-steps N] | kp translate FILE | kp lex FILE [--verbose] | kp parse FILE\n"

/-- The reason why a file that does not exist cannot be read. -/
def noFile : String := "No such file or directory (os error 2)"

/-- The reason why a file cannot be read. -/
def reasonOf : IO.Error → String
  | .noFileOrDirectory _ _ _ => noFile
  | .permissionDenied _ _ _ => "Permission denied (os error 13)"
  | e => toString e

/-- The content of a file or the reason why it cannot be read. -/
def load (name : String) : IO (Except String String) := do
  try
    return .ok (← IO.FS.readFile name)
  catch e =>
    return .error (reasonOf e)

/-- The files that a task reads. -/
def fileNames : Command → List String
  | .run file config _ => file :: config.toList
  | .render file => [file]
  | .lex file _ => [file]
  | .parse file => [file]

/-- What is known of the surroundings while a task is performed. -/
structure Known where
  content : String → Except String String
  /-- The input read so far. -/
  stdin : String := ""
  stdinEnded : Bool := false
  /-- The readings of the clock at the steps before the horizon. -/
  readings : Nat → Nat := fun _ => 0
  /-- The first step whose reading is not known. -/
  horizon : Nat := 0x10000
  /-- The time at which the program was started. -/
  started : Nat
  /-- The time spent waiting for input. -/
  waited : Nat := 0
  /-- The number of characters printed so far. -/
  printed : Nat := 0

/-- A reading of the clock beyond every limit. -/
def unknownTime : Nat := 1 <<< 128

/-- The surroundings as far as they are known. -/
def Known.surroundings (known : Known) : Command.Surroundings :=
  ⟨known.content, known.stdin, fun step => if step < known.horizon then known.readings step else unknownTime⟩

/-- Reads a line of input. -/
def Known.readLine (known : Known) : IO Known := do
  let before ← IO.monoNanosNow
  let line ← (← IO.getStdin).getLine
  let after ← IO.monoNanosNow
  return { known with
    stdin := known.stdin ++ line
    stdinEnded := line.isEmpty
    waited := known.waited + (after - before) }

/-- Reads the clock for the steps up to a horizon twice as far. -/
def Known.readClock (known : Known) : IO Known := do
  let elapsed := (← IO.monoNanosNow) - known.started - known.waited
  return { known with
    readings := fun step => if step < known.horizon then known.readings step else elapsed
    horizon := 2 * known.horizon }

/-- Prints what has not been printed yet. -/
def Known.print (known : Known) (text : String) : IO Known := do
  let stdout ← IO.getStdout
  stdout.putStr (text.drop known.printed).toString
  stdout.flush
  return { known with printed := text.length }

/-- Performs a task to its end and returns the exit status. -/
partial def perform (command : Command) (known : Known) : IO UInt32 := do
  let answer := command.perform known.surroundings
  let known ← known.print answer.stdout
  match answer.interruption with
  | some .noInput =>
    if known.stdinEnded then finish answer else perform command (← known.readLine)
  | some (.timeOver elapsed) =>
    if elapsed == unknownTime then perform command (← known.readClock) else finish answer
  | none => finish answer
where
  finish (answer : Command.Answer) : IO UInt32 := do
    (← IO.getStderr).putStr answer.stderr
    return answer.status.toUInt32

end HostScript.Main

/-- The command line program. -/
def main (arguments : List String) : IO UInt32 := do
  match HostScript.Command.ofArguments? arguments with
  | none =>
    (← IO.getStderr).putStr HostScript.Main.usage
    return 2
  | some command =>
    let files ← (HostScript.Main.fileNames command).mapM fun name => do return (name, ← HostScript.Main.load name)
    let content (name : String) := (files.lookup name).getD (.error HostScript.Main.noFile)
    HostScript.Main.perform command { content, started := ← IO.monoNanosNow }
