/-!
# Outlines of data

A tree of names, fields and items that shows how a datum is built, with two renderers: `Outline.line` writes it on one line and
`Outline.indented` writes one field or item a line.
-/

namespace HostScript

/-- The structure of a datum, for display. -/
inductive Outline
  /-- A datum without inner structure. -/
  | leaf (text : String)
  /-- A named datum with named fields. -/
  | record (name : String) (fields : List (String × Outline))
  /-- A datum with unnamed components; the name may be empty. -/
  | tuple (name : String) (items : List Outline)
  /-- A sequence. -/
  | list (items : List Outline)
  /-- A finite map. -/
  | map (entries : List (Outline × Outline))

namespace Outline

/-- An optional datum. -/
def option : Option Outline → Outline
  | none => .leaf "None"
  | some inner => .tuple "Some" [inner]

/-- A truth value. -/
def bool (b : Bool) : Outline := .leaf (if b then "true" else "false")

/-- The comma before every item but the first. -/
def comma (out : String) (first : Bool) : String := if first then out else out ++ ", "

mutual

/-- Appends an outline on one line. -/
def writeLine : Outline → String → String
  | .leaf text, out => out ++ text
  | .record name fields, out => writeLineFields fields (out ++ name ++ " \x7b ") true ++ " \x7d"
  | .tuple name items, out => (writeLineItems items (out ++ name ++ "(") true).push ')'
  | .list items, out => (writeLineItems items (out.push '[') true).push ']'
  | .map entries, out => (writeLineEntries entries (out.push '\x7b') true).push '\x7d'

/-- Appends named fields on one line. -/
def writeLineFields : List (String × Outline) → String → Bool → String
  | [], out, _ => out
  | (name, field) :: rest, out, first =>
    writeLineFields rest (writeLine field (comma out first ++ name ++ ": ")) false

/-- Appends items on one line. -/
def writeLineItems : List Outline → String → Bool → String
  | [], out, _ => out
  | item :: rest, out, first => writeLineItems rest (writeLine item (comma out first)) false

/-- Appends map entries on one line. -/
def writeLineEntries : List (Outline × Outline) → String → Bool → String
  | [], out, _ => out
  | (key, value) :: rest, out, first =>
    writeLineEntries rest (writeLine value (writeLine key (comma out first) ++ ": ")) false

end

/-- The outline on one line. -/
def line (outline : Outline) : String := writeLine outline ""

/-- A new line, indented by four blanks for each level. -/
def newline (depth : Nat) (out : String) : String := (List.replicate depth "    ").foldl (· ++ ·) (out.push '\n')

mutual

/-- Appends an outline at a depth, with one component a line. -/
def writeIndented (depth : Nat) : Outline → String → String
  | .leaf text, out => out ++ text
  | .record name fields, out =>
    (newline depth (writeIndentedFields (depth + 1) fields (out ++ name ++ " \x7b"))).push '\x7d'
  | .tuple name items, out =>
    (newline depth (writeIndentedItems (depth + 1) items (out ++ name ++ "("))).push ')'
  | .list items, out =>
    if items.isEmpty then out ++ "[]"
    else (newline depth (writeIndentedItems (depth + 1) items (out.push '['))).push ']'
  | .map entries, out =>
    if entries.isEmpty then out ++ "\x7b\x7d"
    else (newline depth (writeIndentedEntries (depth + 1) entries (out.push '\x7b'))).push '\x7d'

/-- Appends named fields, each on its line. -/
def writeIndentedFields (depth : Nat) : List (String × Outline) → String → String
  | [], out => out
  | (name, field) :: rest, out =>
    writeIndentedFields depth rest ((writeIndented depth field (newline depth out ++ name ++ ": ")).push ',')

/-- Appends items, each on its line. -/
def writeIndentedItems (depth : Nat) : List Outline → String → String
  | [], out => out
  | item :: rest, out => writeIndentedItems depth rest ((writeIndented depth item (newline depth out)).push ',')

/-- Appends map entries, each on its line. -/
def writeIndentedEntries (depth : Nat) : List (Outline × Outline) → String → String
  | [], out => out
  | (key, value) :: rest, out =>
    writeIndentedEntries depth rest
      ((writeIndented depth value (writeIndented depth key (newline depth out) ++ ": ")).push ',')

end

/-- The outline with one component a line. -/
def indented (outline : Outline) : String := writeIndented 0 outline ""

end Outline

end HostScript
