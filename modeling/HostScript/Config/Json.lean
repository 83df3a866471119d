import HostScript.Config.Basic
import HostScript.Json.Reader
import HostScript.Text.Escaped

/-!
# Except Fault (the × Cursor) configuration from data

`Config.ofJson` reads the settings from an object, or from an array that gives them in order. Settings that are not given keep
their defaults; unknown and repeated ones are refused.
-/

namespace HostScript.Config

open Json (Cursor Place Numeral)

/-- What is wrong with a configuration. -/
inductive Problem
  | data (problem : Json.Problem)
  | unknownField (name : String)
  | duplicateField (name : String)
  | invalidType (found expected : String)
  | invalidValue (found expected : String)
  deriving DecidableEq, Repr

/-- The wording of a problem. -/
def Problem.message : Problem → String
  | .data problem => problem.message
  | .unknownField name =>
    let known := ", ".intercalate (fields.map fun f => s!"`{f.name}`")
    s!"unknown field `{name}`, expected one of {known}"
  | .duplicateField name => s!"duplicate field `{name}`"
  | .invalidType found expected => s!"invalid type: {found}, expected {expected}"
  | .invalidValue found expected => s!"invalid value: {found}, expected {expected}"

/-- A problem and where it was noticed. -/
structure Fault where
  problem : Problem
  place : Place
  deriving DecidableEq, Repr

/-- The wording of a fault. -/
def Fault.message (fault : Fault) : String := fault.place.locate fault.problem.message

/-- A fault of the data. -/
def dataFault (e : Json.Error) : Fault := ⟨.data e.problem, e.place⟩

/-- A result of reading data. -/
def ofData {α : Type} (r : Except Json.Error α) : Except Fault α := r.mapError dataFault

/-- A fault at the place of a cursor. -/
def faultAt (cursor : Cursor) (problem : Problem) : Fault := ⟨problem, cursor.place⟩

/-- How a numeral is described where it does not belong. -/
def describeNumeral : Numeral → String
  | .unsigned n => s!"integer `{Number.integerText n}`"
  | .signed i => s!"integer `{Number.integerText i}`"
  | .float x => s!"floating point `{(Number.float x).compact}`"

/-- Describes the value at a cursor. A scalar is read; a container is not. -/
def describe (cursor : Cursor) : Except Fault (String × Cursor) :=
  match cursor.rest with
  | 'n' :: _ => do return ("null", ← ofData (Json.readWord "ull".toList (cursor.skip 1)))
  | 't' :: _ => do return ("boolean `true`", ← ofData (Json.readWord "rue".toList (cursor.skip 1)))
  | 'f' :: _ => do return ("boolean `false`", ← ofData (Json.readWord "alse".toList (cursor.skip 1)))
  | '-' :: _ => do
    let (numeral, cursor) ← ofData (Json.readNumeral true (cursor.skip 1))
    return (describeNumeral numeral, cursor)
  | '"' :: _ => do
    let (text, cursor) ← ofData (Json.readChars (cursor.skip 1) [])
    return (s!"string {Text.quoted text}", cursor)
  | '[' :: _ => .ok ("sequence", cursor)
  | '\x7b' :: _ => .ok ("map", cursor)
  | [] => .error (dataFault (cursor.failNext .eofInValue))
  | c :: _ =>
    if c.isDigit then do
      let (numeral, cursor) ← ofData (Json.readNumeral false cursor)
      return (describeNumeral numeral, cursor)
    else .error (dataFault (cursor.failNext .expectedValue))

/-- Refuses the value at a cursor. -/
def refuse {α : Type} (expected : String) (cursor : Cursor) : Except Fault (α × Cursor) := do
  let (found, cursor) ← describe cursor
  .error (faultAt cursor (.invalidType found expected))

/-- Accepts an unsigned numeral. -/
def acceptUnsigned (expected : String) (numeral : Numeral) (cursor : Cursor) : Except Fault (Nat × Cursor) :=
  match numeral with
  | .unsigned n => .ok (n, cursor)
  | .signed _ => .error (faultAt cursor (.invalidValue (describeNumeral numeral) expected))
  | .float _ => .error (faultAt cursor (.invalidType (describeNumeral numeral) expected))

/-- Reads an unsigned number. -/
def readUnsigned (expected : String) (cursor : Cursor) : Except Fault (Nat × Cursor) :=
  let cursor := cursor.skipBlanks
  match cursor.rest with
  | '-' :: _ => do
    let (numeral, cursor) ← ofData (Json.readNumeral true (cursor.skip 1))
    acceptUnsigned expected numeral cursor
  | c :: _ =>
    if c.isDigit then do
      let (numeral, cursor) ← ofData (Json.readNumeral false cursor)
      acceptUnsigned expected numeral cursor
    else refuse expected cursor
  | [] => refuse expected cursor

/-- Reads an unsigned number or null. -/
def readOption (expected : String) (cursor : Cursor) : Except Fault (Option Nat × Cursor) :=
  let cursor := cursor.skipBlanks
  match cursor.rest with
  | 'n' :: _ => do return (none, ← ofData (Json.readWord "ull".toList (cursor.skip 1)))
  | _ => do
    let (n, cursor) ← readUnsigned expected cursor
    return (some n, cursor)

/-- Reads a truth value. -/
def readBool (cursor : Cursor) : Except Fault (Bool × Cursor) :=
  let cursor := cursor.skipBlanks
  match cursor.rest with
  | 't' :: _ => do return (true, ← ofData (Json.readWord "rue".toList (cursor.skip 1)))
  | 'f' :: _ => do return (false, ← ofData (Json.readWord "alse".toList (cursor.skip 1)))
  | _ => refuse "a boolean" cursor

/-- Reads the value of a setting. -/
def readField (config : Config) (field : Field) (cursor : Cursor) : Except Fault (Config × Cursor) := do
  match field with
  | .maxSteps =>
    let (n, cursor) ← readOption "u64" cursor
    return ({ config with maxSteps := n }, cursor)
  | .maxCallDepth =>
    let (n, cursor) ← readUnsigned "usize" cursor
    return ({ config with maxCallDepth := n }, cursor)
  | .timeLimitMs =>
    let (n, cursor) ← readOption "u64" cursor
    return ({ config with timeLimitMs := n }, cursor)
  | .logScript =>
    let (b, cursor) ← readBool cursor
    return ({ config with logScript := b }, cursor)

/-- The cursor at which a fault of a name is noticed: after any blanks, and after the brace if the object ends there. -/
def afterName (cursor : Cursor) : Cursor :=
  let cursor := cursor.skipBlanks
  match cursor.rest with
  | '\x7d' :: _ => cursor.skip 1
  | _ => cursor

/-- Reads settings by name up to the closing brace. `seen` holds those that have been read; the fuel bounds their number. -/
def readNamed : Nat → List Field → Config → Cursor → Except Fault (Config × Cursor)
  | 0, _, _, cursor => .error (dataFault (cursor.failNext .eofInObject))
  | fuel + 1, seen, config, cursor => do
    match ← ofData (Json.nextKey seen.isEmpty cursor) with
    | none => return (config, cursor.skipBlanks.skip 1)
    | some cursor =>
      let (name, cursor) ← ofData (Json.readChars (cursor.skip 1) [])
      match Field.ofName? name with
      | none => .error (faultAt (afterName cursor) (.unknownField name))
      | some field =>
        if seen.contains field then .error (faultAt (afterName cursor) (.duplicateField name))
        else
          let cursor ← ofData (Json.readColon cursor)
          let (config, cursor) ← readField config field cursor
          readNamed fuel (field :: seen) config cursor

/-- Reads settings in order up to the closing bracket; there may be fewer of them. -/
def readOrdered (first : Bool) (config : Config) (cursor : Cursor) : List Field → Except Fault (Config × Cursor)
  | [] =>
    let cursor := cursor.skipBlanks
    match cursor.rest with
    | [] => .error (dataFault (cursor.failNext .eofInList))
    | ']' :: _ => .ok (config, cursor.skip 1)
    | ',' :: _ =>
      let cursor := (cursor.skip 1).skipBlanks
      match cursor.rest with
      | ']' :: _ => .error (dataFault (cursor.failNext .trailingComma))
      | _ => .error (dataFault (cursor.failNext .trailingCharacters))
    | _ => .error (dataFault (cursor.failNext .trailingCharacters))
  | field :: rest => do
    match ← ofData (Json.nextItem first cursor) with
    | none => return (config, cursor.skipBlanks.skip 1)
    | some cursor =>
      let (config, cursor) ← readField config field cursor
      readOrdered false config cursor rest

/-- Reads a whole text as a configuration. -/
def ofJson (text : String) : Except Fault Config := do
  let cursor := (Cursor.ofText text).skipBlanks
  let (config, cursor) ← match cursor.rest with
    | [] => .error (dataFault (cursor.failNext .eofInValue))
    | '\x7b' :: rest => readNamed (rest.length + 1) [] {} (cursor.skip 1)
    | '[' :: _ => readOrdered true {} (cursor.skip 1) fields
    | _ => refuse "struct ExecutorConfig" cursor
  ofData (Json.readEnd cursor)
  return config

end HostScript.Config
