import Reckon.Number.Basic
/-!
# Arithmetic beyond the four operations

The remainder of a division, the smaller and the larger of two numbers, their order, and the
tolerance with which numbers are compared for equality.
-/

namespace Reckon.Number

/-- A truth value as a number. -/
def ofBool (b : Bool) : Number := if b then 1 else 0

/-- The remainder of the division of `x` by `y`, rounded toward zero: it has the sign of `x` and
is smaller than `y`. It is computed on the exact magnitudes, and so is exact. -/
def remainder (x y : Number) : Number :=
  if x.isNaN ∨ y.isNaN ∨ x.isInf then notANumber
  else if y.isInf then x
  else if y.quanta = 0 then notANumber
  else ofPattern x.isNegative (nearestPattern (x.quanta % y.quanta) 1)

/-- The larger of two numbers. One that is no number gives way to the other. -/
def larger (x y : Number) : Number :=
  if x.isNaN then y else if x < y then y else x

/-- The smaller of two numbers. One that is no number gives way to the other. -/
def smaller (x y : Number) : Number :=
  if x.isNaN then y else if y < x then y else x

/-- How `x` stands to `y`, if both are numbers. -/
def order? (x y : Number) : Option Ordering :=
  if x < y then some .lt else if x == y then some .eq else if y < x then some .gt else none

/-- The distance from `1` to the next number, `2⁻⁵²`. -/
def epsilon : Number := Float.ofBits 0x3CB0000000000000

/-- Whether two numbers count as equal. Finite numbers may differ by `epsilon`, taken relative to
the larger magnitude where that is more than `1`. An infinity is equal to itself only. -/
def approxEq (x y : Number) : Bool :=
  if x == y then true
  else if !x.isFinite || !y.isFinite then false
  else (x - y).abs ≤ epsilon * larger (larger x.abs y.abs) 1

end Reckon.Number
