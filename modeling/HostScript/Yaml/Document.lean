import HostScript.Yaml.Node

/-!
# Documents

A text holds one document, which is a flat mapping: entries below each other in a block, or between braces. `readMapping?` gives
its entries in order. A text that is no such document, or that holds a second one, is refused.
-/

namespace HostScript.Yaml

/-- A name and its value. -/
structure Entry where
  name : Scalar
  value : Scalar
  deriving DecidableEq, Repr

/-- The greatest number of characters from the start of a key to its colon, unless the key is marked. -/
def keyWidth : Nat := 1024

/-- A key that starts and ends at the given places needs no mark: its colon is near on the same line. -/
def isPlainKey (start stop : Cursor) : Bool := stop.line == start.line && stop.column ≤ start.column + keyWidth

/-- The given mark comes next, with a gap behind it. -/
def isAtBlockMark (mark : Char) (cursor : Cursor) : Bool :=
  match cursor.rest with
  | c :: rest => c == mark && isGap rest
  | [] => false

/-- Reads the value behind the colon of an entry of a block at a column. -/
def readBlockValue (column : Nat) (name : Scalar) (anchors : Anchors) (cursor : Cursor) : Option (Entry × Anchors × Cursor) := do
  let (value, anchors, next) ← readNode (.block (column + 1)) anchors (cursor.skipGap (.block column))
  return (⟨name, value⟩, anchors, next)

/-- Reads an entry of a block at a column. A key with a question mark before it has its colon on a line of its own, or none. -/
def readBlockEntry (column : Nat) (anchors : Anchors) (cursor : Cursor) : Option (Entry × Anchors × Cursor) := do
  if isAtBlockMark '?' cursor then
    let (name, anchors, next) ← readNode (.block (column + 1)) anchors (cursor.advanceFresh.skipGap (.block column))
    if isAtBlockMark ':' next && next.column == column then readBlockValue column name anchors next.advanceFresh
    else return (⟨name, {}⟩, anchors, next)
  else
    let (name, anchors, next) ← readNode (.block column) anchors cursor
    guard (isAtBlockMark ':' next && isPlainKey cursor next)
    readBlockValue column name anchors (next.advance 1)

/-- Reads the entries of a block at a column. The block ends where something stands to the left of it. -/
def readBlock (column : Nat) (anchors : Anchors) (cursor : Cursor) : Option (List Entry × Cursor) :=
  if cursor.isAtEnd || cursor.column < column || cursor.isAtClosing then some ([], cursor)
  else if cursor.column == column && cursor.fresh then
    match readBlockEntry column anchors cursor with
    | none => none
    | some (entry, anchors, next) =>
      if next.rest.length < cursor.rest.length then
        (readBlock column anchors next).map fun (entries, stop) => (entry :: entries, stop)
      else none
  else none
termination_by cursor.rest.length

/-- Reads an entry between braces. -/
def readFlowEntry (anchors : Anchors) (cursor : Cursor) : Option (Entry × Anchors × Cursor) := do
  let marked := cursor.rest.head? == some '?'
  let start := if marked then (cursor.advance 1).skipGap .flow else cursor
  let (name, anchors, next) ← readNode .flow anchors start
  if next.rest.head? == some ':' then
    guard (marked || isPlainKey start next)
    let (value, anchors, next) ← readNode .flow anchors ((next.advance 1).skipGap .flow)
    return (⟨name, value⟩, anchors, next)
  else return (⟨name, {}⟩, anchors, next)

/-- Reads entries with commas between them up to the closing brace. -/
def readFlow (anchors : Anchors) (cursor : Cursor) : Option (List Entry × Cursor) :=
  if cursor.rest.head? == some '}' then some ([], cursor.advance 1)
  else match readFlowEntry anchors cursor with
    | none => none
    | some (entry, anchors, next) =>
      match next.rest with
      | '}' :: _ => some ([entry], next.advance 1)
      | ',' :: _ =>
        let next := (next.advance 1).skipGap .flow
        if next.rest.length < cursor.rest.length then
          (readFlow anchors next).map fun (entries, stop) => (entry :: entries, stop)
        else none
      | _ => none
termination_by cursor.rest.length

/-- Nothing follows but marks that close the document. -/
def isClosed (cursor : Cursor) : Bool :=
  if cursor.isAtEnd then true
  else if cursor.isAtClosing then
    let next := cursor.skipMark
    if next.rest.length < cursor.rest.length then isClosed next else false
  else false
termination_by cursor.rest.length

/-- Reads the line that tells the version of the format, one of two. -/
def readVersion? (cursor : Cursor) : Option Cursor :=
  match cursor.rest with
  | '%' :: 'Y' :: 'A' :: 'M' :: 'L' :: rest => do
    guard (rest.head?.any isBlank)
    let version := rest.dropWhile isBlank
    guard (["1.1".toList, "1.2".toList].contains (version.take 3))
    let stop := cursor.moveTo (version.drop 3)
    let next := stop.skipGap (.block 0)
    guard ((isGap stop.rest || stop.rest.head? == some '#') && stop.line < next.line)
    return next
  | _ => none

/-- Reads the mark that opens a document, if there is one. A line that tells the version needs it. -/
def readOpening? (cursor : Cursor) : Option (Bool × Cursor) := do
  let versioned := cursor.column == 0 && cursor.rest.head? == some '%'
  let start ← if versioned then readVersion? cursor else some cursor
  if start.isAtOpening then return (true, start.skipMark)
  guard (!versioned)
  return (false, start)

/-- Skips the properties of the mapping as a whole, which stand on lines of their own or in front of its brace. Properties with a
name behind them on their line are those of the name. -/
def skipProperties (cursor : Cursor) : Option Cursor := do
  let settle (before after : Cursor) : Cursor :=
    if before.line < after.line || after.isAtEnd || after.rest.head? == some '{' then after else before
  let (properties, second) ← readProperty (.block 0) {} cursor
  let (_, third) ← readProperty (.block 0) properties second
  return settle (settle cursor second) third

/-- Reads the entries of the only document of a text. It has none if there is no document or if it is empty. -/
def readMapping? (text : String) : Option (List Entry) := do
  guard (text.toList.all isPrintable)
  let (opened, first) ← readOpening? ((Cursor.ofText text).skipGap (.block 0))
  let start ← skipProperties first
  if start.isAtEnd || ((opened || first.line < start.line) && isClosed start) then return []
  let (entries, stop) ← if start.rest.head? == some '{' then readFlow [] ((start.advance 1).skipGap .flow)
    else do
      guard (!start.isAtClosing)
      readBlock start.column [] start
  guard (isClosed (stop.skipGap (.block 0)))
  return entries

end HostScript.Yaml
