import HostScript.Binary64

/-!
# Script numbers

A number is a 64-bit integer or a binary64 value. Integer arithmetic is exact as long as the result is a 64-bit integer and goes
on in floating point when it is not. Integers are compared exactly with each other, and every other pair as binary64 values under
the total order.
-/

namespace HostScript

/-- A script number. -/
inductive Number
  | int (value : Int64)
  | float (value : Binary64)
  deriving DecidableEq, Repr

/-- Why arithmetic fails. -/
inductive Number.Fault
  | divideByZero
  | moduloByZero
  | overflow
  deriving DecidableEq, Repr

/-- The wording of an arithmetic fault. -/
def Number.Fault.message : Number.Fault → String
  | .divideByZero => "divide by zero"
  | .moduloByZero => "modulo by zero"
  | .overflow => "numeric overflow"

namespace Number

/-- The 64-bit integer of an exact value, if it is in range. -/
def int64? (exact : Int) : Option Int64 :=
  if -0x8000000000000000 ≤ exact ∧ exact < 0x8000000000000000 then some (Int64.ofInt exact) else none

/-- The exact result as an integer if it is in range, and the given floating point result otherwise. -/
@[macro_inline] def exactOr (exact : Int) (rounded : Binary64) : Number :=
  match int64? exact with
  | some i => .int i
  | none => .float rounded

/-- The number of a natural number, rounded when it is too large for an integer. -/
def ofNat (n : Nat) : Number := exactOr n (.ofInt n)

/-- The binary64 value nearest to a number. -/
def toBinary64 : Number → Binary64
  | .int i => .ofInt i.toInt
  | .float x => x

/-- Zero of either kind and sign. -/
def isZero : Number → Bool
  | .int i => i == 0
  | .float x => x.isZero

/-- Not an infinity and not a value that is no number. -/
def isFinite : Number → Bool
  | .int _ => true
  | .float x => x.isFinite

/-- Refuses what is not finite. -/
def ensureFinite (n : Number) : Except Fault Number := if n.isFinite then .ok n else .error .overflow

/-- The integer that a number stands for exactly. A float stands for one if it has no fractional part and its magnitude is at
most `2 ^ 53`. -/
def toInt? : Number → Option Int
  | .int i => some i.toInt
  | .float x => x.toExactInt?

/-- The natural number that a number stands for exactly. -/
def toNat? (n : Number) : Option Nat :=
  match n.toInt? with
  | some (.ofNat index) => some index
  | _ => none

/-- Equality of the kind as well as the value is finer than the order: the order compares two integers exactly and all other
pairs as floats. -/
def compare : Number → Number → Ordering
  | .int a, .int b => Ord.compare a.toInt b.toInt
  | a, b => a.toBinary64.compare b.toBinary64

/-- The sum. -/
def add : Number → Number → Number
  | .int a, .int b => exactOr (a.toInt + b.toInt) (.add (.ofInt a.toInt) (.ofInt b.toInt))
  | a, b => .float (a.toBinary64.add b.toBinary64)

/-- The difference. -/
def sub : Number → Number → Number
  | .int a, .int b => exactOr (a.toInt - b.toInt) (.sub (.ofInt a.toInt) (.ofInt b.toInt))
  | a, b => .float (a.toBinary64.sub b.toBinary64)

/-- The product. -/
def mul : Number → Number → Number
  | .int a, .int b => exactOr (a.toInt * b.toInt) (.mul (.ofInt a.toInt) (.ofInt b.toInt))
  | a, b => .float (a.toBinary64.mul b.toBinary64)

/-- The quotient: an integer if both operands are integers and the division leaves no remainder. -/
def div (a b : Number) : Except Fault Number :=
  if b.isZero then .error .divideByZero
  else .ok (match a, b with
    | .int a, .int b =>
      if a.toInt.tmod b.toInt = 0 then exactOr (a.toInt.tdiv b.toInt) (.div (.ofInt a.toInt) (.ofInt b.toInt))
      else .float (.div (.ofInt a.toInt) (.ofInt b.toInt))
    | a, b => .float (a.toBinary64.div b.toBinary64))

/-- The remainder, with the sign of the dividend. -/
def mod (a b : Number) : Except Fault Number :=
  if b.isZero then .error .moduloByZero
  else .ok (match a, b with
    | .int a, .int b => .int (.ofInt (a.toInt.tmod b.toInt))
    | a, b => .float (a.toBinary64.rem b.toBinary64))

/-- The opposite. -/
def neg : Number → Number
  | .int i => exactOr (-i.toInt) (.neg (.ofInt i.toInt))
  | .float x => .float x.neg

/-- The magnitude. -/
def abs : Number → Number
  | .int i => exactOr i.toInt.natAbs (.abs (.ofInt i.toInt))
  | .float x => .float x.abs

/-- A float that stands for an integer exactly becomes that integer. -/
def ofIntegral (x : Binary64) : Number :=
  match x.toExactInt? with
  | some i => .int (.ofInt i)
  | none => .float x

/-- The nearest integer, a half going away from zero; it stays a float beyond `2 ^ 53`. -/
def round : Number → Number
  | .int i => .int i
  | .float x => ofIntegral x.round

/-- The integer towards zero; it stays a float beyond `2 ^ 53`. -/
def trunc : Number → Number
  | .int i => .int i
  | .float x => ofIntegral x.trunc

/-- The number as a float. -/
def toFloat (n : Number) : Number := .float n.toBinary64

end Number

end HostScript
