import Reckon.Number.Basic
import Reckon.Number.Decimal
/-!
# The fewest digits that identify a number

In messages a number is written with as few digits as reading needs to find it again. The reals
that round to a finite number form an interval, from halfway to the neighbour below to halfway to
the neighbour above; the ends belong to it exactly if the pattern is even. The digits are found on
the coarsest decimal grid that has a point in the interval: if any point of a grid lies there, one
of the two grid points around the number does.

* `Number.readsBack` — the interval, decided in exact arithmetic;
* `Number.shortest` — the decimal chosen;
* `Number.plain`, `Number.precise` — its two layouts.
-/

namespace Reckon.Number

/-- Whether the decimal lies among the reals that round to the number with this pattern. Both
sides of each comparison are in half quanta, times a power of ten that makes them whole. -/
def readsBack (pattern : Nat) (d : Decimal) : Bool :=
  let scale := Nat.pow 10 (-d.exponent).toNat
  let low := (quantaOf (pattern - 1) + quantaOf pattern) * scale
  let high := (quantaOf pattern + quantaOf (pattern + 1)) * scale
  let value := d.digits * Nat.pow 10 d.exponent.toNat * (2 * quantaInOne)
  if pattern % 2 = 0 then low ≤ value ∧ value ≤ high else low < value ∧ value < high

/-- The point of the grid `10 ^ exponent` that reads back to the pattern, the nearer one if both
points around the number do. Of two equally near ones it is the greater. -/
def nearestOnGrid? (pattern : Nat) (exponent : Int) : Option Decimal :=
  let unit := Nat.pow 10 exponent.toNat * quantaInOne
  let value := quantaOf pattern * Nat.pow 10 (-exponent).toNat
  let below := value / unit
  let around := if 2 * (value % unit) < unit then [below, below + 1] else [below + 1, below]
  (around.map fun digits => ⟨digits, exponent⟩).find? (readsBack pattern)

/-- A power of ten above the number with this many quanta. With `b` for the logarithm the number is
below `2 ^ (b - 1073)`, and `0.30103` is the decimal logarithm of two, rounded up by less than what
the final one adds. -/
def exponentAbove (quanta : Nat) : Int :=
  ((quanta.log2 : Int) - 1073) * 30103 / 100000 + 1

/-- The decimal with the fewest digits that reads back to a positive finite pattern. The grids run
from one that is coarser than the number, and so has no point but zero below it, down to one finer
than a quantum, which has a point in every interval. -/
def shortest (pattern : Nat) : Decimal :=
  let coarsest := exponentAbove (quantaOf pattern)
  let grids := (List.range (coarsest + 325).toNat).map fun (i : Nat) => coarsest - i
  (grids.findSome? (nearestOnGrid? pattern)).getD
    ⟨quantaOf pattern * Nat.pow 5 quantaExponent, -quantaExponent⟩

/-- The decimal written for a finite pattern. -/
def written (pattern : Nat) : Decimal :=
  if pattern = 0 then ⟨0, 0⟩ else shortest pattern

/-- The number with the fewest digits, positional whatever its size: `0.0000001`, `1`, `-0`. -/
def plain (x : Number) : String :=
  x.spell fun pattern => (written pattern).positional

/-- The number with the fewest digits and a mark that it is no integer: `1.0`, `0.5`. From `10¹⁶`
on and below `10⁻⁴` it has an exponent: `1e16`, `2.5e-7`. -/
def precise (x : Number) : String :=
  x.spell fun pattern =>
    let d := written pattern
    if -4 ≤ d.leadingExponent ∧ d.leadingExponent < 16 then
      d.positional ++ (if 0 ≤ d.exponent then ".0" else "")
    else d.scientific

end Reckon.Number
