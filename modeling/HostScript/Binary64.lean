/-!
# Binary64 floating point

A value of the 64-bit binary interchange format, kept as its sign and its rank: the position of its magnitude among all
non-negative values in increasing order. Rank `0` is zero, rank `infinityRank` is infinity, and every rank above it is not a
number, so comparing magnitudes is comparing ranks.

A finite magnitude is a whole number of `2 ^ -1074`, its `scaled` value. Every operation below computes its exact result as a
quotient of natural numbers in that unit and rounds once, to nearest with ties to even (`ofScaled`).
-/

namespace HostScript

/-- A number of the 64-bit binary interchange format. -/
structure Binary64 where
  /-- The sign; zero has two. -/
  negative : Bool
  /-- The position of the magnitude among the non-negative values. -/
  rank : Nat
  deriving DecidableEq, Repr

namespace Binary64

/-- The number of ranks between two doublings of the step, `2 ^ 52`. -/
def blockSize : Nat := 0x10000000000000

/-- The rank of infinity: the ranks below it are those of the finite values. -/
def infinityRank : Nat := 2047 * blockSize

/-- The number of smallest steps in one, as a power of two: a magnitude is `scaled / 2 ^ unitBits`. -/
def unitBits : Nat := 1074

/-- One, in units of `2 ^ -1074`. -/
def unit : Nat := 1 <<< unitBits

/-- Positive zero. -/
def zero : Binary64 := ⟨false, 0⟩

/-- Infinity of the given sign. -/
def infinity (negative : Bool) : Binary64 := ⟨negative, infinityRank⟩

/-- The quiet value that is not a number. -/
def nan : Binary64 := ⟨false, infinityRank + blockSize / 2⟩

/-- Neither infinite nor not a number. -/
def isFinite (x : Binary64) : Bool := decide (x.rank < infinityRank)

/-- Not a number. -/
def isNaN (x : Binary64) : Bool := decide (infinityRank < x.rank)

/-- Zero of either sign. -/
def isZero (x : Binary64) : Bool := x.rank == 0

/-- The magnitude of a rank, in units of `2 ^ -1074`. Ranks up to `2 ^ 53` are the magnitude itself; beyond, each block of
`2 ^ 52` ranks doubles the step. -/
def scaledOfRank (rank : Nat) : Nat :=
  if rank < blockSize then rank else (blockSize + rank % blockSize) <<< (rank / blockSize - 1)

/-- The magnitude of a finite value, in units of `2 ^ -1074`. -/
def scaled (x : Binary64) : Nat := scaledOfRank x.rank

/-- The value of a finite number, in units of `2 ^ -1074`. -/
def signedScaled (x : Binary64) : Int := if x.negative then -(x.scaled : Int) else x.scaled

/-- The whole number nearest to `num / den`, the even one of two equally near. -/
def roundHalfEven (num den : Nat) : Nat :=
  let quotient := num / den
  let rest := num % den
  if 2 * rest < den then quotient
  else if den < 2 * rest then quotient + 1
  else quotient + quotient % 2

/-- The rank nearest to the magnitude `num / den` in units of `2 ^ -1074`. The shift brings the quotient down to 53 bits; a
rounding up to `2 ^ 53` carries into the next block by itself, and a rank past the last finite one is infinity. -/
def rankOfScaled (num den : Nat) : Nat :=
  let shift := (num / den).log2 - 52
  min (shift * blockSize + roundHalfEven num (den <<< shift)) infinityRank

/-- The value of the given sign nearest to the magnitude `num / den` in units of `2 ^ -1074`. -/
def ofScaled (negative : Bool) (num den : Nat) : Binary64 := ⟨negative, rankOfScaled num den⟩

/-- The value nearest to an integer; zero is positive. -/
def ofInt (i : Int) : Binary64 := ofScaled (decide (i < 0)) (i.natAbs <<< unitBits) 1

/-- The opposite sign. -/
def neg (x : Binary64) : Binary64 := { x with negative := !x.negative }

/-- The positive sign. -/
def abs (x : Binary64) : Binary64 := { x with negative := false }

/-- The sum. Two zeros of one sign keep it; every other exact zero is positive. -/
def add (x y : Binary64) : Binary64 :=
  if x.isNaN || y.isNaN then nan
  else if !x.isFinite then (if !y.isFinite && x.negative != y.negative then nan else x)
  else if !y.isFinite then y
  else
    let total := x.signedScaled + y.signedScaled
    if total == 0 then ⟨x.negative && y.negative, 0⟩
    else ofScaled (decide (total < 0)) total.natAbs 1

/-- The difference: the sum with the opposite. -/
def sub (x y : Binary64) : Binary64 := add x y.neg

/-- The product. -/
def mul (x y : Binary64) : Binary64 :=
  let negative := x.negative != y.negative
  if x.isNaN || y.isNaN then nan
  else if !x.isFinite || !y.isFinite then (if x.isZero || y.isZero then nan else infinity negative)
  else ofScaled negative (x.scaled * y.scaled) unit

/-- The quotient. -/
def div (x y : Binary64) : Binary64 :=
  let negative := x.negative != y.negative
  if x.isNaN || y.isNaN then nan
  else if !x.isFinite then (if y.isFinite then infinity negative else nan)
  else if !y.isFinite then ⟨negative, 0⟩
  else if y.isZero then (if x.isZero then nan else infinity negative)
  else ofScaled negative (x.scaled <<< unitBits) y.scaled

/-- The remainder of the division that truncates; it is exact and has the sign of the dividend. -/
def rem (x y : Binary64) : Binary64 :=
  if x.isNaN || y.isNaN || !x.isFinite || y.isZero then nan
  else if !y.isFinite then x
  else ofScaled x.negative (x.scaled % y.scaled) 1

/-- The integer towards zero; infinities and values that are no number stay. -/
def trunc (x : Binary64) : Binary64 :=
  if x.isFinite then ofScaled x.negative (x.scaled / unit * unit) 1 else x

/-- The nearest integer, a half going away from zero; infinities and values that are no number stay. -/
def round (x : Binary64) : Binary64 :=
  if x.isFinite then
    ofScaled x.negative ((2 * x.scaled + unit) / (2 * unit) * unit) 1
  else x

/-- A finite value without fractional part. -/
def isIntegral (x : Binary64) : Bool := x.isFinite && x.scaled % unit == 0

/-- The integer towards zero of a finite value. -/
def toInt (x : Binary64) : Int :=
  let whole : Nat := x.scaled / unit
  if x.negative then -(whole : Int) else whole

/-- The largest magnitude up to which every integer is a value. -/
def exactIntegerLimit : Nat := 2 * blockSize

/-- The integer that a value stands for exactly: it has no fractional part and its magnitude is at most `2 ^ 53`. -/
def toExactInt? (x : Binary64) : Option Int :=
  if x.isIntegral && decide (x.toInt.natAbs ≤ exactIntegerLimit) then some x.toInt else none

/-- The place in the total order: magnitudes of negative sign come first and in reverse, `-0` just below `0`. -/
def orderKey (x : Binary64) : Int := if x.negative then -(x.rank : Int) - 1 else x.rank

/-- The total order of the interchange format. -/
def compare (x y : Binary64) : Ordering := Ord.compare x.orderKey y.orderKey

end Binary64

end HostScript
