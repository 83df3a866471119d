import HostScript.Config.Basic
import HostScript.Yaml.Document

/-!
# Reading the configuration from lines

`Config.ofYaml?` reads the settings from a flat mapping. A setting that is not named keeps its default, and none is named twice.
What a value means depends on its setting, since an optional one may be null or left empty.
-/

namespace HostScript.Config

open Yaml (Scalar Entry)

/-- The unsigned number that digits denote in a base of at most sixteen. -/
def unsignedOf? (base : Nat) (digits : List Char) : Option Nat := do
  let values ← digits.mapM Json.hexValue?
  guard (!values.isEmpty && values.all (· < base))
  return values.foldl (fun total d => total * base + d) 0

/-- The largest number that a setting can have. -/
def maxSetting : Nat := 0xFFFFFFFFFFFFFFFF

/-- The unsigned number that a word denotes: decimal digits without a leading zero, or digits of another base after its mark. -/
def plainUnsigned? (word : List Char) : Option Nat :=
  let unsigned := match word with
    | '+' :: rest => rest
    | _ => word
  let number := match unsigned with
    | '0' :: 'x' :: digits => unsignedOf? 16 digits
    | '0' :: 'o' :: digits => unsignedOf? 8 digits
    | '0' :: 'b' :: digits => unsignedOf? 2 digits
    | '0' :: _ :: _ => none
    | digits => unsignedOf? 10 digits
  number.filter (· ≤ maxSetting)

/-- The number that a value denotes. What is quoted is no number, whatever its tag. -/
def unsigned? (value : Scalar) : Option Nat := if value.quoted then none else plainUnsigned? value.text.toList

/-- The truth value that a value denotes. -/
def bool? (value : Scalar) : Option Bool :=
  if value.quoted then none
  else if ["true", "True", "TRUE"].contains value.text then some true
  else if ["false", "False", "FALSE"].contains value.text then some false
  else none

/-- A word for null. -/
def isNullWord (text : String) : Bool := ["~", "null", "Null", "NULL"].contains text

/-- The number that a value denotes, or none if the value is null. A value with the tag of null must be a word for it, and one with
another tag is never null. -/
def optionalUnsigned? (value : Scalar) : Option (Option Nat) :=
  let null : Bool := !value.quoted && match value.tag with
    | none => value.text.isEmpty || isNullWord value.text
    | some tag => tag == Yaml.nullTag && isNullWord value.text
  if null then some none
  else if !value.quoted && value.tag == some Yaml.nullTag then none
  else (unsigned? value).map some

/-- Gives a setting a value of its type. -/
def setScalar? (config : Config) (field : Field) (value : Scalar) : Option Config :=
  match field with
  | .maxSteps => (optionalUnsigned? value).map fun n => { config with maxSteps := n }
  | .maxCallDepth => (unsigned? value).map fun n => { config with maxCallDepth := n }
  | .timeLimitMs => (optionalUnsigned? value).map fun n => { config with timeLimitMs := n }
  | .logScript => (bool? value).map fun b => { config with logScript := b }

/-- Gives settings the values of a mapping, one after the other. `seen` holds the settings that have been given one. -/
def setEntries? (seen : List Field) (config : Config) : List Entry → Option Config
  | [] => some config
  | entry :: rest => do
    let field ← Field.ofName? entry.name.text
    guard (!seen.contains field)
    let config ← setScalar? config field entry.value
    setEntries? (field :: seen) config rest

/-- Reads a whole text as a configuration. -/
def ofYaml? (text : String) : Option Config := do setEntries? [] {} (← Yaml.readMapping? text)

end HostScript.Config
