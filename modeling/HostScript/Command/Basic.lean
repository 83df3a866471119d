/-!
# Command lines

The tasks of the command line program and how its arguments name them.
-/

namespace HostScript

/-- A task of the command line program. -/
inductive Command
  /-- Run a file and print its exports. -/
  | run (file : String) (config : Option String) (maxSteps : Option Nat)
  /-- Print a file as host script. -/
  | render (file : String)
  /-- Print the tokens of a file. -/
  | lex (file : String) (verbose : Bool)
  /-- Print the syntax tree of a file's host script. -/
  | parse (file : String)
  deriving DecidableEq, Repr

namespace Command

/-- The options of the command line. -/
inductive Flag
  | config
  | maxSteps
  | verbose
  deriving DecidableEq, Repr

/-- An argument of a task. -/
inductive Argument
  | plain (text : String)
  /-- An option and the value written into the same argument. -/
  | flag (flag : Flag) (value : Option String)
  deriving DecidableEq, Repr

/-- The spellings of the options. -/
def spellings : List (String × Flag) :=
  [("--config", .config), ("-c", .config), ("--max-steps", .maxSteps), ("--verbose", .verbose), ("-v", .verbose)]

/-- Splits a long option at the first equals sign. -/
def splitEquals (text : List Char) : List Char × Option (List Char) :=
  match text.dropWhile (· != '=') with
  | [] => (text, none)
  | _ :: value => (text.takeWhile (· != '='), some value)

/-- Reads an argument: a long option may hold its value after an equals sign, a short one directly. An argument that begins with
a dash and is no known option is refused; a dash alone is a plain argument. -/
def Argument.ofText? (text : String) : Option Argument :=
  let long := splitEquals text.toList
  match text.toList with
  | '-' :: '-' :: _ =>
    (spellings.lookup (String.ofList long.1)).map fun flag => .flag flag (long.2.map String.ofList)
  | '-' :: letter :: value =>
    (spellings.lookup (String.ofList ['-', letter])).map fun flag =>
      .flag flag (match value with
        | [] => none
        | '=' :: value => some (String.ofList value)
        | value => some (String.ofList value))
  | _ => some (.plain text)

/-- What the arguments of a task say. -/
structure Arguments where
  file : Option String := none
  config : Option String := none
  maxSteps : Option Nat := none
  verbose : Bool := false

/-- The largest number of steps that can be asked for. -/
def greatestMaxSteps : Nat := 0xFFFFFFFFFFFFFFFF

/-- A number of steps as it is written. -/
def stepsOfText? (text : String) : Option Nat :=
  let digits := match text.toList with
    | '+' :: rest => rest
    | all => all
  if digits.isEmpty || !digits.all Char.isDigit then none
  else some (digits.foldl (fun n c => n * 10 + (c.toNat - '0'.toNat)) 0) |>.filter (· ≤ greatestMaxSteps)

namespace Arguments

/-- Gives the task its file, of which there is one. -/
def setFile? (a : Arguments) (text : String) : Option Arguments :=
  if a.file.isNone then some { a with file := some text } else none

/-- Gives an option its value. Each may be given once. -/
def setValue? (a : Arguments) (flag : Flag) (value : String) : Option Arguments :=
  match flag with
  | .config => if a.config.isNone then some { a with config := some value } else none
  | .maxSteps =>
    if a.maxSteps.isNone then (stepsOfText? value).map fun n => { a with maxSteps := some n } else none
  | .verbose => none

/-- Reads the arguments of a task that knows the given options. `pending` is an option that stands without its value. All
arguments after two dashes are plain. -/
def ofTexts? (known : List Flag) (pending : Option Flag) (a : Arguments) : List String → Option Arguments
  | [] => if pending.isNone then some a else none
  | text :: rest =>
    if text == "--" then if pending.isNone then rest.foldlM setFile? a else none
    else do
      match ← Argument.ofText? text, pending with
      | .plain text, none => ofTexts? known none (← a.setFile? text) rest
      | .plain value, some flag => ofTexts? known none (← a.setValue? flag value) rest
      | .flag _ _, some _ => none
      | .flag flag value, none =>
        guard (known.contains flag)
        match flag, value with
        | .verbose, none =>
          guard (!a.verbose)
          ofTexts? known none { a with verbose := true } rest
        | .verbose, some _ => none
        | flag, some value => ofTexts? known none (← a.setValue? flag value) rest
        | flag, none => ofTexts? known (some flag) a rest

end Arguments

/-- The task that the arguments of the program name. -/
def ofArguments? : List String → Option Command
  | "run" :: rest => do
    let a ← Arguments.ofTexts? [.config, .maxSteps] none {} rest
    return .run (← a.file) a.config a.maxSteps
  | "translate" :: rest => do
    let a ← Arguments.ofTexts? [] none {} rest
    return .render (← a.file)
  | "lex" :: rest => do
    let a ← Arguments.ofTexts? [.verbose] none {} rest
    return .lex (← a.file) a.verbose
  | "parse" :: rest => do
    let a ← Arguments.ofTexts? [] none {} rest
    return .parse (← a.file)
  | _ => none

end Command

end HostScript
