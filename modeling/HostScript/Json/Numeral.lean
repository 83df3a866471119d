import HostScript.Decimal.Basic
import HostScript.Json.Cursor

/-!
# Reading numerals

The numbers of a data text. A whole number that fits 64 bits stays exact. Any other is a float: the leading digits as far as they
fit an unsigned 64-bit integer, converted and then multiplied or divided by a power of ten.
-/

namespace HostScript.Json

/-- A number as it is written. -/
inductive Numeral
  | unsigned (value : Nat)
  | signed (value : Int)
  | float (value : Binary64)
  deriving DecidableEq, Repr

/-- The largest unsigned 64-bit integer. -/
def maxUnsigned : Nat := 0xFFFFFFFFFFFFFFFF

/-- The largest exponent that is read in full. -/
def maxExponent : Nat := 0x7FFFFFFF

/-- Appends digits to a number as long as it stays within a limit; what does not fit is left over. -/
def accumulate (limit : Nat) : Nat → List Char → Nat × List Char
  | value, [] => (value, [])
  | value, c :: rest =>
    let longer := value * 10 + (c.toNat - '0'.toNat)
    if limit < longer then (value, c :: rest) else accumulate limit longer rest

/-- The greatest power of ten that one multiplication or division applies. -/
def stepExponent : Nat := 308

/-- The float nearest to a power of ten. -/
def powerOfTen (n : Nat) : Binary64 := Decimal.toBinary64 false ⟨1, n⟩

/-- Divides by the greatest power of ten several times, until nothing is left. -/
def divideSteps : Nat → Binary64 → Binary64
  | 0, x => x
  | n + 1, x => if x.isZero then x else divideSteps n (x.div (powerOfTen stepExponent))

/-- The float `significand * 10 ^ exponent`; none if it is out of range. -/
def floatOfParts? (significand : Nat) (exponent : Int) : Option Binary64 :=
  let x := Binary64.ofInt significand
  if 0 ≤ exponent then
    if exponent ≤ stepExponent then
      let product := x.mul (powerOfTen exponent.toNat)
      if product.isFinite then some product else none
    else if x.isZero then some x else none
  else
    let steps := (exponent.natAbs - 1) / stepExponent
    let scaled := divideSteps steps x
    some (if scaled.isZero then scaled else scaled.div (powerOfTen (exponent.natAbs - steps * stepExponent)))

/-- The digits at a cursor. -/
def Cursor.digits (cursor : Cursor) : List Char := cursor.rest.takeWhile Char.isDigit

/-- The float of a sign, a significand and an exponent, all of it read. -/
def finishFloat (negative : Bool) (significand : Nat) (exponent : Int) (cursor : Cursor) :
    Except Error (Numeral × Cursor) :=
  match floatOfParts? significand exponent with
  | some x => .ok (.float (if negative then x.neg else x), cursor)
  | none => .error (cursor.fail .numberOutOfRange)

/-- Reads an exponent, after its `e`. -/
def readExponent (negative : Bool) (significand : Nat) (before : Int) (cursor : Cursor) :
    Except Error (Numeral × Cursor) :=
  let (down, cursor) := match cursor.rest with
    | '+' :: _ => (false, cursor.skip 1)
    | '-' :: _ => (true, cursor.skip 1)
    | _ => (false, cursor)
  let digits := cursor.digits
  if cursor.rest.isEmpty then .error (cursor.fail .eofInValue)
  else if digits.isEmpty then .error (cursor.failNext .invalidNumber)
  else
    let (exponent, left) := accumulate maxExponent 0 digits
    let next := cursor.skip digits.length
    if left.isEmpty then finishFloat negative significand (if down then before - exponent else before + exponent) next
    else if significand != 0 && !down then
      .error ((cursor.skip (digits.length - left.length + 1)).fail .numberOutOfRange)
    else .ok (.float ⟨negative, 0⟩, next)

/-- Reads an exponent if there is one, and otherwise finishes the number. -/
def readTail (negative : Bool) (significand : Nat) (before : Int) (cursor : Cursor) : Except Error (Numeral × Cursor) :=
  match cursor.rest with
  | 'e' :: _ | 'E' :: _ => readExponent negative significand before (cursor.skip 1)
  | _ => finishFloat negative significand before cursor

/-- Reads the digits after the point. Those that do not fit the significand are dropped. -/
def readFraction (negative : Bool) (significand : Nat) (before : Int) (cursor : Cursor) :
    Except Error (Numeral × Cursor) :=
  let digits := cursor.digits
  if digits.isEmpty then
    .error (cursor.failNext (if cursor.rest.isEmpty then .eofInValue else .invalidNumber))
  else
    let (significand, left) := accumulate maxUnsigned significand digits
    readTail negative significand (before - (digits.length - left.length : Nat)) (cursor.skip digits.length)

/-- The numeral of whole digits: a negative one is signed if it fits, and a float if it does not or is zero. -/
def wholeNumeral (negative : Bool) (magnitude : Nat) : Numeral :=
  if !negative then .unsigned magnitude
  else if 0 < magnitude ∧ magnitude ≤ 0x8000000000000000 then .signed (-(magnitude : Int))
  else .float (Binary64.ofInt magnitude).neg

/-- Reads a number, after its sign. -/
def readNumeral (negative : Bool) (cursor : Cursor) : Except Error (Numeral × Cursor) :=
  let digits := cursor.digits
  match cursor.rest, digits with
  | [], _ => .error (cursor.fail .eofInValue)
  | _, [] => .error (cursor.failNext .invalidNumber)
  | _, '0' :: _ :: _ => .error ((cursor.skip 1).failNext .invalidNumber)
  | _, _ =>
    let (significand, left) := accumulate maxUnsigned 0 digits
    let next := cursor.skip digits.length
    match next.rest with
    | '.' :: _ => readFraction negative significand left.length (next.skip 1)
    | 'e' :: _ | 'E' :: _ => readExponent negative significand left.length (next.skip 1)
    | _ =>
      if left.isEmpty then .ok (wholeNumeral negative significand, next)
      else finishFloat negative significand left.length next

end HostScript.Json
