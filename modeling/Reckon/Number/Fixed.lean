import Reckon.Number.Basic
import Reckon.Number.Decimal
/-!
# Numbers with six places

The value of an expression is shown with six digits after the point. It is the exact binary value
that is rounded, once, and a tie goes to the even digit.
-/

namespace Reckon.Number

/-- How many digits follow the point. -/
def fixedPlaces : Nat := 6

/-- The multiple of `10⁻⁶` nearest to a number of quanta, counted in these. -/
def millionths (quanta : Nat) : Nat :=
  roundHalfEven (quanta * Nat.pow 10 fixedPlaces) quantaInOne

/-- The number with six digits after the point. -/
def fixed (x : Number) : String :=
  x.spell fun pattern => Decimal.positional ⟨millionths (quantaOf pattern), -fixedPlaces⟩

end Reckon.Number
