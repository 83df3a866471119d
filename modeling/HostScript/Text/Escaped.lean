/-!
# Escaped text

How diagnostics show text on one line: quotes, backslashes and control characters are written as escapes. Printable characters
of any script stay as they are.
-/

namespace HostScript.Text

/-- Control characters: they move the cursor or ring the bell and are shown by number. -/
def isControl (c : Char) : Bool := c.toNat < 0x20 || (0x7F ≤ c.toNat && c.toNat ≤ 0x9F)

/-- What a character is shown as inside double quotes. -/
def escapeChar (c : Char) : List Char :=
  if c == '"' then ['\\', '"']
  else if c == '\\' then ['\\', '\\']
  else if c == '\n' then ['\\', 'n']
  else if c == '\r' then ['\\', 'r']
  else if c == '\t' then ['\\', 't']
  else if c.toNat == 0 then ['\\', '0']
  else if isControl c then '\\' :: 'u' :: '\x7b' :: Nat.toDigits 16 c.toNat ++ ['\x7d']
  else [c]

/-- What a character is shown as where both kinds of quote are escaped. -/
def escapeCharAndApostrophe (c : Char) : List Char := if c == '\x27' then ['\\', '\x27'] else escapeChar c

/-- A text between double quotes, escaped. -/
def quoted (text : String) : String := String.ofList ('"' :: text.toList.flatMap escapeChar ++ ['"'])

/-- The longest beginning of an excerpt that is shown, in characters after escaping. -/
def excerptLength : Nat := 32

/-- A text between double quotes, escaped and cut off after `excerptLength` characters; an ellipsis shows the cut. -/
def excerpt (text : String) : String :=
  let escaped := text.toList.flatMap escapeCharAndApostrophe
  let shown := escaped.take excerptLength
  String.ofList ('"' :: shown ++ (if shown.length < escaped.length then ['.', '.', '.'] else []) ++ ['"'])

end HostScript.Text
