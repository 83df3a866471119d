import HostScript.Json.Quoted
import HostScript.Number.Text
import HostScript.Value.Basic

/-!
# The text of a value

Three ways of writing a value: `Value.compact` is data on one line, `Value.pretty` is data with one entry a line, and
`Value.display` is what a script shows, strings without quotes. Each writer appends to the text written so far.
-/

namespace HostScript.Value

/-- A string, which is written as a key as it is. -/
def isString : Value → Bool
  | .string _ => true
  | _ => false

mutual

/-- Appends the compact text of a value. -/
def writeCompact : Value → String → String
  | .null, out => out ++ "null"
  | .bool b, out => out ++ (if b then "true" else "false")
  | .number n, out => out ++ n.compact
  | .string text, out => out ++ Json.quote text
  | .array items, out => (writeItems items (out.push '[') true).push ']'
  | .object ⟨entries, _⟩, out => (writeEntries entries (out.push '\x7b') true).push '\x7d'

/-- Appends the items of an array, with commas between them. -/
def writeItems : List Value → String → Bool → String
  | [], out, _ => out
  | item :: rest, out, first => writeItems rest (writeCompact item (if first then out else out.push ',')) false

/-- Appends the entries of an object, with commas between them. A key that is no string is written as the string of its compact
text. -/
def writeEntries : List (Value × Value) → String → Bool → String
  | [], out, _ => out
  | (key, value) :: rest, out, first =>
    let keyText := writeCompact key ""
    let keyText := if key.isString then keyText else Json.quote keyText
    let out := (if first then out else out.push ',') ++ keyText
    writeEntries rest (writeCompact value (out.push ':')) false

end

/-- The text of a value as data on one line. -/
def compact (v : Value) : String := writeCompact v ""

/-- The text of an object's key. -/
def keyText (key : Value) : String := if key.isString then key.compact else Json.quote key.compact

/-- A new line, indented by two blanks for each container around it. -/
def newline (depth : Nat) (out : String) : String := (List.replicate depth "  ").foldl (· ++ ·) (out.push '\n')

mutual

/-- Appends the text of a value inside `depth` containers, with one item or entry a line. -/
def writePretty (depth : Nat) : Value → String → String
  | .array items, out =>
    if items.isEmpty then out ++ "[]" else (newline depth (writePrettyItems (depth + 1) items (out.push '[') true)).push ']'
  | .object ⟨entries, _⟩, out =>
    if entries.isEmpty then out ++ "\x7b\x7d"
    else (newline depth (writePrettyEntries (depth + 1) entries (out.push '\x7b') true)).push '\x7d'
  | .null, out => out ++ "null"
  | .bool b, out => out ++ (if b then "true" else "false")
  | .number n, out => out ++ n.compact
  | .string text, out => out ++ Json.quote text

/-- Appends the items of an array, each on its line. -/
def writePrettyItems (depth : Nat) : List Value → String → Bool → String
  | [], out, _ => out
  | item :: rest, out, first =>
    writePrettyItems depth rest (writePretty depth item (newline depth (if first then out else out.push ','))) false

/-- Appends the entries of an object, each on its line. -/
def writePrettyEntries (depth : Nat) : List (Value × Value) → String → Bool → String
  | [], out, _ => out
  | (key, value) :: rest, out, first =>
    let out := newline depth (if first then out else out.push ',') ++ key.keyText ++ ": "
    writePrettyEntries depth rest (writePretty depth value out) false

end

/-- The text of a value as data with one item or entry a line. -/
def pretty (v : Value) : String := writePretty 0 v ""

/-- The text that a script shows: a string as it is, everything else as compact data. -/
def display : Value → String
  | .string text => text
  | v => v.compact

end HostScript.Value
