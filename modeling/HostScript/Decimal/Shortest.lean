import HostScript.Decimal.Basic

/-!
# The shortest decimal of a binary64 magnitude

The decimal with the fewest digits that reads back to a given magnitude, and among those with equally many the one nearest to it.
The search goes through the decimal grids from coarse to fine; on each grid only the two points next to the value can read back
if any does.
-/

namespace HostScript.Decimal

/-- Which of two equally near decimals is taken. -/
inductive Tie
  /-- The one whose last digit is even. -/
  | toEven
  /-- The larger one. -/
  | away
  deriving DecidableEq, Repr

/-- Compares `digits * 10 ^ exponent` with `units` steps of `2 ^ -1075`, exactly. -/
def compareHalfUnits (d : Decimal) (units : Nat) : Ordering :=
  Ord.compare ((d.digits * powerOfTen d.exponent) <<< (Binary64.unitBits + 1)) (units * powerOfTen (-d.exponent))

/-- A decimal lies among the reals that round to the magnitude of the given positive rank: between the midpoints to its two
neighbours, the midpoints themselves included when the rank is even. -/
def readsBack (rank : Nat) (d : Decimal) : Bool :=
  let here := Binary64.scaledOfRank rank
  let below := d.compareHalfUnits (Binary64.scaledOfRank (rank - 1) + here)
  let above := d.compareHalfUnits (here + Binary64.scaledOfRank (rank + 1))
  if rank % 2 == 0 then below.isGE && above.isLE else below.isGT && above.isLT

/-- The exponent of the leading decimal digit of a positive magnitude. The estimate from its binary length is at most one too
small. -/
def leadingExponent (rank : Nat) : Int :=
  let scaled := Binary64.scaledOfRank rank
  let estimate := ((scaled.log2 : Int) - Binary64.unitBits) * 30103 / 100000
  if (Decimal.compareHalfUnits ⟨1, estimate + 1⟩ (2 * scaled)).isLE then estimate + 1 else estimate

/-- The candidate on the grid of multiples of `10 ^ exponent`: of the two grid points around the magnitude those that read
back, the nearer one if both do. -/
def onGrid? (tie : Tie) (rank : Nat) (exponent : Int) : Option Decimal :=
  let num := Binary64.scaledOfRank rank * powerOfTen (-exponent)
  let den := powerOfTen exponent <<< Binary64.unitBits
  let lower : Decimal := ⟨num / den, exponent⟩
  let upper : Decimal := ⟨num / den + 1, exponent⟩
  match readsBack rank lower, readsBack rank upper with
  | true, true => some (match Ord.compare (2 * (num % den)) den, tie with
    | .lt, _ => lower
    | .gt, _ | .eq, .away => upper
    | .eq, .toEven => if lower.digits % 2 == 0 then lower else upper)
  | true, false => some lower
  | false, true => some upper
  | false, false => none

/-- The shortest decimal that reads back to the magnitude of the given rank. Seventeen digits always suffice. -/
def shortest (tie : Tie) (rank : Nat) : Decimal :=
  if rank = 0 then ⟨0, 0⟩
  else
    let leading := leadingExponent rank
    ((List.range 17).findSome? fun (k : Nat) => onGrid? tie rank (leading - k)).getD ⟨0, 0⟩

end HostScript.Decimal
