import HostScript.Json.Numeral
import HostScript.Json.Text
import HostScript.Value.Basic

/-!
# Reading data as values

`Value.ofJson` reads a whole text as one value. Containers nest at most `maxDepth` deep, which is also the measure of the
recursion; the items of one container are read by a loop over the rest of the text.
-/

namespace HostScript.Json

/-- How many containers may be open at once. -/
def maxDepth : Nat := 127

/-- The value of a numeral: an unsigned number beyond the integers becomes a float. -/
def Numeral.toNumber : Numeral → Number
  | .unsigned n => .ofNat n
  | .signed i => .int (.ofInt i)
  | .float x => .float x

/-- Reads the rest of a word whose first letter has been read. -/
def readWord (word : List Char) (cursor : Cursor) : Except Error Cursor :=
  match word, cursor.rest with
  | [], _ => .ok cursor
  | _ :: _, [] => .error (cursor.fail .eofInValue)
  | expected :: word, c :: _ =>
    if c == expected then readWord word (cursor.skip 1) else .error (cursor.failNext .expectedIdent)

/-- Reads an element of a container, at the first character after any blanks. -/
abbrev ElementReader := Cursor → Except Error (Value × Cursor)

/-- Steps to the next item of an array: none at its closing bracket. -/
def nextItem (first : Bool) (cursor : Cursor) : Except Error (Option Cursor) :=
  let cursor := cursor.skipBlanks
  match cursor.rest with
  | [] => .error (cursor.failNext .eofInList)
  | ']' :: _ => .ok none
  | c :: _ =>
    if first then .ok (some cursor)
    else if c != ',' then .error (cursor.failNext .expectedListCommaOrEnd)
    else
      let cursor := (cursor.skip 1).skipBlanks
      match cursor.rest with
      | [] => .error (cursor.failNext .eofInValue)
      | ']' :: _ => .error (cursor.failNext .trailingComma)
      | _ => .ok (some cursor)

/-- Reads the items of an array and its closing bracket. The fuel bounds the number of items. -/
def readItems (element : ElementReader) : Nat → List Value → Cursor → Except Error (List Value × Cursor)
  | 0, _, cursor => .error (cursor.failNext .eofInList)
  | fuel + 1, read, cursor => do
    match ← nextItem read.isEmpty cursor with
    | none => return (read.reverse, cursor.skipBlanks.skip 1)
    | some cursor =>
      let (item, cursor) ← element cursor
      readItems element fuel (item :: read) cursor

/-- Steps to the next key of an object: none at its closing brace. -/
def nextKey (first : Bool) (cursor : Cursor) : Except Error (Option Cursor) :=
  let cursor := cursor.skipBlanks
  match cursor.rest with
  | [] => .error (cursor.failNext .eofInObject)
  | '\x7d' :: _ => .ok none
  | c :: _ =>
    if first then
      if c == '"' then .ok (some cursor) else .error (cursor.failNext .keyMustBeString)
    else if c != ',' then .error (cursor.failNext .expectedObjectCommaOrEnd)
    else
      let cursor := (cursor.skip 1).skipBlanks
      match cursor.rest with
      | [] => .error (cursor.failNext .eofInValue)
      | '"' :: _ => .ok (some cursor)
      | '\x7d' :: _ => .error (cursor.failNext .trailingComma)
      | _ => .error (cursor.failNext .keyMustBeString)

/-- Reads the colon after a key. -/
def readColon (cursor : Cursor) : Except Error Cursor :=
  let cursor := cursor.skipBlanks
  match cursor.rest with
  | [] => .error (cursor.failNext .eofInObject)
  | ':' :: _ => .ok (cursor.skip 1)
  | _ => .error (cursor.failNext .expectedColon)

/-- Reads the entries of an object and its closing brace. The fuel bounds the number of entries. -/
def readEntries (element : ElementReader) :
    Nat → Bool → Table Value → Cursor → Except Error (Table Value × Cursor)
  | 0, _, _, cursor => .error (cursor.failNext .eofInObject)
  | fuel + 1, first, read, cursor => do
    match ← nextKey first cursor with
    | none => return (read, cursor.skipBlanks.skip 1)
    | some cursor =>
      let (key, cursor) ← readChars (cursor.skip 1) []
      let cursor ← readColon cursor
      let (value, cursor) ← element cursor
      readEntries element fuel false (Value.insertEntry (.string key) value read) cursor

/-- Reads a value inside which `depth` more containers may be open. -/
def readValue (depth : Nat) (cursor : Cursor) : Except Error (Value × Cursor) :=
  let cursor := cursor.skipBlanks
  match cursor.rest, depth with
  | [], _ => .error (cursor.failNext .eofInValue)
  | 'n' :: _, _ => do return (.null, ← readWord "ull".toList (cursor.skip 1))
  | 't' :: _, _ => do return (.bool true, ← readWord "rue".toList (cursor.skip 1))
  | 'f' :: _, _ => do return (.bool false, ← readWord "alse".toList (cursor.skip 1))
  | '-' :: _, _ => do
    let (numeral, cursor) ← readNumeral true (cursor.skip 1)
    return (.number numeral.toNumber, cursor)
  | '"' :: _, _ => do
    let (text, cursor) ← readChars (cursor.skip 1) []
    return (.string text, cursor)
  | '[' :: rest, depth + 1 => do
    let (items, cursor) ← readItems (readValue depth) (rest.length + 1) [] (cursor.skip 1)
    return (.array items, cursor)
  | '\x7b' :: rest, depth + 1 => do
    let (table, cursor) ← readEntries (readValue depth) (rest.length + 1) true .empty (cursor.skip 1)
    return (.object table, cursor)
  | c :: _, _ =>
    if c.isDigit then do
      let (numeral, cursor) ← readNumeral false cursor
      return (.number numeral.toNumber, cursor)
    else if c == '[' || c == '\x7b' then .error (cursor.failNext .recursionLimit)
    else .error (cursor.failNext .expectedValue)

/-- Refuses anything but blanks before the end of the text. -/
def readEnd (cursor : Cursor) : Except Error Unit :=
  let cursor := cursor.skipBlanks
  if cursor.rest.isEmpty then .ok () else .error (cursor.failNext .trailingCharacters)

end HostScript.Json

/-- Reads a whole text as one value. -/
def HostScript.Value.ofJson (text : String) : Except HostScript.Json.Error HostScript.Value := do
  let (value, cursor) ← Json.readValue Json.maxDepth (Json.Cursor.ofText text)
  Json.readEnd cursor
  return value
