import HostScript.Yaml.Scalar

/-!
# Nodes

A node is a scalar with its properties, a tag and a name under which it can be used again, or a use of such a name. It may be left
out altogether; then it is the empty scalar.
-/

namespace HostScript.Yaml

/-- The scalars that have been named, the last one first. -/
abbrev Anchors := List (String × Scalar)

/-- What stands in front of a scalar. -/
structure Properties where
  anchor : Option String := none
  tag : Option String := none
  deriving DecidableEq, Repr

/-- A character of a name. -/
def isNameChar (c : Char) : Bool := c.isAlphanum || c == '-' || c == '_'

/-- A character of a tag. -/
def isTagChar (c : Char) : Bool := isNameChar c || ";/?:@&=+$.!~*'()".toList.contains c

/-- What the tags of the standard types begin with. -/
def standardTag : String := "tag:yaml.org,2002:"

/-- The tag of the null value. -/
def nullTag : String := standardTag ++ "null"

/-- Reads the name of an anchor. -/
def anchorName? (text : List Char) : Option (String × List Char) := do
  let name := text.takeWhile isNameChar
  let after := text.drop name.length
  guard (!name.isEmpty && (isGap after || "?:,]\x7d%@\x60".toList.contains (after.headD ' ')))
  return (String.ofList name, after)

/-- Reads what follows the mark of a tag, up to the blank or the comma behind it. A tag is written in full between angle brackets,
or behind two marks if it is a standard one; otherwise it is local and keeps its mark. -/
def tagName? (context : Context) (text : List Char) : Option (String × List Char) := do
  let (name, after) ← match text with
    | '<' :: rest =>
      let name := rest.takeWhile fun c => isTagChar c || [',', '[', ']'].contains c
      match name, rest.drop name.length with
      | _ :: _, '>' :: after => some (String.ofList name, after)
      | _, _ => none
    | '!' :: rest =>
      let name := rest.takeWhile isTagChar
      if name.isEmpty then none else some (standardTag ++ String.ofList name, rest.drop name.length)
    | rest =>
      let name := rest.takeWhile isTagChar
      if (name.dropWhile isNameChar).head? == some '!' then none
      else some ("!" ++ String.ofList name, rest.drop name.length)
  guard (isGap after || (context == .flow && after.head? == some ','))
  return (name, after)

/-- Something stands at the cursor that belongs to the context. -/
def Context.holds (context : Context) (cursor : Cursor) : Bool :=
  match context, cursor.rest with
  | _, [] => false
  | .flow, c :: _ => c != ',' && c != '}'
  | .block least, _ => least ≤ cursor.column

/-- Reads a property, if one comes next. None is given twice. -/
def readProperty (context : Context) (properties : Properties) (cursor : Cursor) : Option (Properties × Cursor) :=
  if context.holds cursor then
    match cursor.rest with
    | '&' :: rest => do
      let (name, after) ← anchorName? rest
      guard properties.anchor.isNone
      return ({ properties with anchor := name }, (cursor.moveTo after).skipGap context)
    | '!' :: rest => do
      let (name, after) ← tagName? context rest
      guard properties.tag.isNone
      return ({ properties with tag := name }, (cursor.moveTo after).skipGap context)
    | _ => some (properties, cursor)
  else some (properties, cursor)

/-- Reads the text of a scalar. -/
def readScalar (context : Context) (tag : Option String) (cursor : Cursor) : Option (Scalar × Cursor) :=
  if context.holds cursor then
    match cursor.rest with
    | '"' :: rest => do
      let (text, after) ← doubleQuoted? rest
      return (⟨String.ofList text, true, tag⟩, (cursor.moveTo after).skipGap context)
    | '\x27' :: rest => do
      let (text, after) ← singleQuoted? rest
      return (⟨String.ofList text, true, tag⟩, (cursor.moveTo after).skipGap context)
    | rest =>
      if startsWord context rest then
        let (text, after) := splitWord context rest
        some (⟨String.ofList text, false, tag⟩, (cursor.moveTo after).skipAfterWord context)
      else none
  else some (⟨"", false, tag⟩, cursor)

/-- Reads a node. -/
def readNode (context : Context) (anchors : Anchors) (cursor : Cursor) : Option (Scalar × Anchors × Cursor) :=
  match context.holds cursor, cursor.rest with
  | true, '*' :: rest => do
    let (name, after) ← anchorName? rest
    let scalar ← anchors.lookup name
    return (scalar, anchors, (cursor.moveTo after).skipGap context)
  | _, _ => do
    let (properties, cursor) ← readProperty context {} cursor
    let (properties, cursor) ← readProperty context properties cursor
    let (scalar, cursor) ← readScalar context properties.tag cursor
    let anchors := match properties.anchor with
      | some name => (name, scalar) :: anchors
      | none => anchors
    return (scalar, anchors, cursor)

end HostScript.Yaml
