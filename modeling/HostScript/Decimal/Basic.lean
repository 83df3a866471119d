import HostScript.Binary64

/-!
# Decimal magnitudes

A magnitude `digits * 10 ^ exponent`, the grammar in which it is written (`Decimal.ofChars?`) and the binary64 value nearest to
it (`Decimal.toBinary64`).
-/

namespace HostScript

/-- The magnitude `digits * 10 ^ exponent`. -/
structure Decimal where
  digits : Nat
  exponent : Int
  deriving DecidableEq, Repr

namespace Decimal

/-- The number that a row of decimal digits denotes; the empty row denotes zero. -/
def natOfDigits (digits : List Char) : Nat := Nat.ofDigitChars 10 digits 0

/-- The power of ten with the given exponent, and one for a negative exponent. -/
def powerOfTen (exponent : Int) : Nat := Nat.pow 10 exponent.toNat

/-- A written exponent, up to the end of the text: nothing, or `e` or `E`, an optional sign and at least one digit. -/
def exponentOfChars? : List Char → Option Int
  | [] => some 0
  | mark :: rest =>
    let (negative, digits) := match rest with
      | '-' :: digits => (true, digits)
      | '+' :: digits => (false, digits)
      | digits => (false, digits)
    if (mark == 'e' || mark == 'E') && !digits.isEmpty && digits.all Char.isDigit then
      some (if negative then -(natOfDigits digits : Int) else natOfDigits digits)
    else none

/-- Reads an unsigned magnitude, up to the end of the text: digits with at most one point among them or at an end, at least one
digit, and an optional exponent. -/
def ofChars? (text : List Char) : Option Decimal :=
  let whole := text.takeWhile Char.isDigit
  let (fraction, rest) := match text.dropWhile Char.isDigit with
    | '.' :: tail => (tail.takeWhile Char.isDigit, tail.dropWhile Char.isDigit)
    | tail => ([], tail)
  if whole.isEmpty && fraction.isEmpty then none
  else (exponentOfChars? rest).map fun e => ⟨natOfDigits (whole ++ fraction), e - fraction.length⟩

/-- The rank of the binary64 magnitude nearest to a decimal one. Exponents above 400 overflow, and a magnitude below
`2 ^ -1100` is nearest to zero; between them the exact quotient is rounded. -/
def nearestRank (d : Decimal) : Nat :=
  if d.digits = 0 then 0
  else if 400 < d.exponent then Binary64.infinityRank
  else if (d.digits.log2 : Int) + 1 + 3 * d.exponent < -1100 then 0
  else Binary64.rankOfScaled ((d.digits * powerOfTen d.exponent) <<< Binary64.unitBits) (powerOfTen (-d.exponent))

/-- The binary64 value of the given sign nearest to a decimal magnitude. -/
def toBinary64 (negative : Bool) (d : Decimal) : Binary64 := ⟨negative, d.nearestRank⟩

end Decimal

end HostScript
