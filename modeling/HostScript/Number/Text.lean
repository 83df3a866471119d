import HostScript.Number.Basic
import HostScript.Decimal.Layout

/-!
# The text of a number

Two ways of writing a number, `Number.compact` for data and `Number.debug` for diagnostics, and the reader of a written number
(`Number.ofText?`). Both writers print an integer in decimal and a float in its shortest digits.
-/

namespace HostScript.Number

/-- Data writes floats plainly from `0.00001` up to sixteen digits before the point, otherwise with a signed exponent; what is not
finite is `null`. -/
def compactLayout : Decimal.Layout where
  plainFrom := -5
  plainTo := 15
  exponentPlus := true
  tie := .toEven
  infinity := fun _ => "null"
  notANumber := "null"

/-- Diagnostics write floats plainly from `0.0001` up to sixteen digits before the point, otherwise with an exponent. -/
def debugLayout : Decimal.Layout where
  plainFrom := -4
  plainTo := 15
  exponentPlus := false
  tie := .away
  infinity := fun negative => if negative then "-inf" else "inf"
  notANumber := "NaN"

/-- The text of an integer. -/
def integerText (i : Int) : String :=
  let digits := Nat.toDigits 10 i.natAbs
  String.ofList (if i < 0 then '-' :: digits else digits)

/-- The text of a number in data. -/
def compact : Number → String
  | .int i => integerText i.toInt
  | .float x => compactLayout.render x

/-- The text of a number in diagnostics. -/
def debug : Number → String
  | .int i => integerText i.toInt
  | .float x => debugLayout.render x

/-- An optional sign and what follows it. -/
def splitSign : List Char → Bool × List Char
  | '-' :: rest => (true, rest)
  | '+' :: rest => (false, rest)
  | text => (false, text)

/-- A whole number in range: the digits alone make it an integer. -/
def integerOfChars? (negative : Bool) (digits : List Char) : Option Int64 :=
  if !digits.isEmpty && digits.all Char.isDigit then
    let magnitude : Int := Decimal.natOfDigits digits
    int64? (if negative then -magnitude else magnitude)
  else none

/-- Reads a whole text as a number: an optional sign and digits for an integer in range, otherwise an optional sign and a decimal
magnitude that rounds to a finite float. -/
def ofText? (text : String) : Option Number :=
  let (negative, rest) := splitSign text.toList
  match integerOfChars? negative rest with
  | some i => some (.int i)
  | none => match Decimal.ofChars? rest with
    | some d =>
      let x := d.toBinary64 negative
      if x.isFinite then some (.float x) else none
    | none => none

end HostScript.Number
