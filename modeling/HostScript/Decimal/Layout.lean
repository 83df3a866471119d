import HostScript.Decimal.Shortest

/-!
# How a floating point number is written

The shortest digits of the number, laid out with a point among them or with an exponent. What formats decide differently is one
record, `Decimal.Layout`.
-/

namespace HostScript.Decimal

/-- The decisions of a number format. -/
structure Layout where
  /-- The least exponent of the leading digit that is written with a point and no exponent. -/
  plainFrom : Int
  /-- The greatest such exponent. -/
  plainTo : Int
  /-- A positive exponent has a plus sign. -/
  exponentPlus : Bool
  /-- Which of two equally near decimals is taken. -/
  tie : Tie
  /-- The text of positive and of negative infinity. -/
  infinity : Bool → String
  /-- The text of what is not a number. -/
  notANumber : String

/-- The digits without the zeros at their end. -/
def significantDigits (d : Decimal) : List Char :=
  let kept := ((Nat.toDigits 10 d.digits).reverse.dropWhile (· == '0')).reverse
  if kept.isEmpty then ['0'] else kept

/-- The digits with a point in them and at least one digit on each side of it; `leading` is the exponent of the first digit. -/
def plain (digits : List Char) (leading : Int) : List Char :=
  if leading < 0 then '0' :: '.' :: List.replicate ((-leading).toNat - 1) '0' ++ digits
  else
    let whole := leading.toNat + 1
    if digits.length ≤ whole then digits ++ List.replicate (whole - digits.length) '0' ++ ['.', '0']
    else digits.take whole ++ '.' :: digits.drop whole

/-- The digits with a point after the first, unless it is the only one, and an exponent. -/
def scientific (exponentPlus : Bool) (digits : List Char) (leading : Int) : List Char :=
  let mantissa := match digits with
    | first :: second :: rest => first :: '.' :: second :: rest
    | single => single
  let sign := if leading < 0 then ['-'] else if exponentPlus then ['+'] else []
  mantissa ++ 'e' :: sign ++ Nat.toDigits 10 leading.natAbs

/-- The text of a magnitude. -/
def Layout.magnitude (layout : Layout) (d : Decimal) : List Char :=
  let digits := d.significantDigits
  let leading := d.exponent + (Nat.toDigits 10 d.digits).length - 1
  if layout.plainFrom ≤ leading && leading ≤ layout.plainTo then plain digits leading
  else scientific layout.exponentPlus digits leading

/-- The text of a binary64 value. -/
def Layout.render (layout : Layout) (x : Binary64) : String :=
  if x.isNaN then layout.notANumber
  else if !x.isFinite then layout.infinity x.negative
  else
    let text := layout.magnitude (shortest layout.tie x.rank)
    String.ofList (if x.negative then '-' :: text else text)

end HostScript.Decimal
