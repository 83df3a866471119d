/-!
# Quoted strings

The written form of a string in data: between double quotes, with the quote, the backslash and the control characters escaped.
-/

namespace HostScript.Json

/-- The digit of a number below sixteen, in lower case. -/
def hexDigit (n : Nat) : Char := Nat.digitChar (n % 16)

/-- What a character is written as between the quotes. -/
def escapeChar (c : Char) : List Char :=
  if c == '"' then ['\\', '"']
  else if c == '\\' then ['\\', '\\']
  else if c == '\n' then ['\\', 'n']
  else if c == '\r' then ['\\', 'r']
  else if c == '\t' then ['\\', 't']
  else if c.toNat == 0x08 then ['\\', 'b']
  else if c.toNat == 0x0C then ['\\', 'f']
  else if c.toNat < 0x20 then ['\\', 'u', '0', '0', hexDigit (c.toNat / 16), hexDigit c.toNat]
  else [c]

/-- The characters of a string, written between quotes. -/
def quoteChars (text : List Char) : List Char := '"' :: text.flatMap escapeChar ++ ['"']

/-- The written form of a string. -/
def quote (text : String) : String := String.ofList (quoteChars text.toList)

end HostScript.Json
