import HostScript.Json.Text
import HostScript.Yaml.Cursor

/-!
# Scalars

The texts that a document holds: single words, and texts between quotes. No setting has a name or a value of several words or lines,
so a word ends at a blank, and what is quoted stands on one line.
-/

namespace HostScript.Yaml

/-- A scalar. One that is left out has the empty text. -/
structure Scalar where
  text : String := ""
  quoted : Bool := false
  /-- The type that the scalar is marked with, written in full. -/
  tag : Option String := none
  deriving DecidableEq, Repr

/-- The marks that no word begins with, three of them unless more of the word follows. -/
def indicators : List Char := "-?:,[]\x7b\x7d#&*!|>'\"%@\x60".toList

/-- A mark that ends a word between braces. -/
def isFlowMark (c : Char) : Bool := [',', '[', ']', '{', '}'].contains c

/-- A word can begin here. -/
def startsWord (context : Context) : List Char → Bool
  | [] => false
  | c :: rest =>
    if c == '-' then !isGap rest
    else if c == '?' || c == ':' then context != .flow && !isGap rest
    else !isGap (c :: rest) && !indicators.contains c

/-- A word ends in front of a character with the given rest behind it. -/
def endsWord (context : Context) (c : Char) (rest : List Char) : Bool :=
  isGap (c :: rest) || (c == ':' && isGap rest) || (context == .flow && isFlowMark c)

/-- Splits a text behind its first word. -/
def splitWord (context : Context) : List Char → List Char × List Char
  | [] => ([], [])
  | c :: rest =>
    if endsWord context c rest then ([], c :: rest)
    else
      let (word, after) := splitWord context rest
      (c :: word, after)

/-- The word and what follows it make up the text. -/
theorem splitWord_append (context : Context) (text : List Char) :
    (splitWord context text).1 ++ (splitWord context text).2 = text := by
  induction text with
  | nil => rfl
  | cons c rest ih =>
    rw [splitWord]
    split
    case isTrue => rfl
    case isFalse => simp [ih]

/-- Reads a text up to its closing single quote. A quote inside is written twice. -/
def singleQuoted? : List Char → Option (List Char × List Char)
  | [] => none
  | '\x27' :: '\x27' :: rest => (singleQuoted? rest).map fun (text, after) => ('\x27' :: text, after)
  | '\x27' :: rest => some ([], rest)
  | '\n' :: _ => none
  | c :: rest => (singleQuoted? rest).map fun (text, after) => (c :: text, after)

/-- The character that a letter names after a backslash. -/
def namedEscape? (c : Char) : Option Char :=
  [('0', '\x00'), ('a', '\x07'), ('b', '\x08'), ('t', '\t'), ('\t', '\t'), ('n', '\n'), ('v', '\x0B'), ('f', '\x0C'), ('r', '\r'),
    ('e', '\x1B'), (' ', ' '), ('"', '"'), ('/', '/'), ('\\', '\\'), ('N', '\u0085'), ('_', '\u00A0'), ('L', '\u2028'),
    ('P', '\u2029')].lookup c

/-- The character whose number hexadecimal digits denote. -/
def numberedEscape? (digits : List Char) : Option Char := do
  let values ← digits.mapM Json.hexValue?
  let number := values.foldl (fun total d => total * 16 + d) 0
  guard number.isValidChar
  return Char.ofNat number

/-- Reads a text up to its closing double quote. -/
def doubleQuoted? : List Char → Option (List Char × List Char)
  | [] => none
  | '"' :: rest => some ([], rest)
  | '\n' :: _ => none
  | '\\' :: 'x' :: a :: b :: rest => escaped (numberedEscape? [a, b]) (doubleQuoted? rest)
  | '\\' :: 'u' :: a :: b :: c :: d :: rest => escaped (numberedEscape? [a, b, c, d]) (doubleQuoted? rest)
  | '\\' :: 'U' :: a :: b :: c :: d :: e :: f :: g :: h :: rest =>
    escaped (numberedEscape? [a, b, c, d, e, f, g, h]) (doubleQuoted? rest)
  | '\\' :: c :: rest => escaped (namedEscape? c) (doubleQuoted? rest)
  | c :: rest => escaped (if c == '\\' then none else some c) (doubleQuoted? rest)
where
  /-- Puts a character in front of what was read behind it. -/
  escaped (c : Option Char) (tail : Option (List Char × List Char)) : Option (List Char × List Char) := do
    let c ← c
    let (text, after) ← tail
    return (c :: text, after)

end HostScript.Yaml
