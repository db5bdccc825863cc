import Reckon.Number.Basic
import Reckon.Number.Decimal
import Reckon.Text.Blank
/-!
# Reading numerals

A numeral is an optional sign followed by `inf`, `infinity` or `nan` in letters of either case, or
by digits with at most one point among them, at least one digit, and perhaps an exponent. Reading
is strict: nothing may follow. The value is the double nearest to what is written, a tie to the
even one.

* `Numeral.read?` — a numeral and nothing else;
* `Numeral.readTrimmed?` — the same with white space allowed at both ends.
-/

namespace Reckon

/-- What a numeral without its sign denotes. -/
inductive Numeral where
  | infinity
  | notANumber
  | decimal (d : Decimal)
deriving DecidableEq, Repr

namespace Numeral

/-- The digits at the front, and what follows them. -/
def splitDigits (cs : List Char) : List Char × List Char :=
  (cs.takeWhile Char.isDigit, cs.dropWhile Char.isDigit)

/-- The digits after a point, if the text starts with one, and what follows. -/
def splitFraction : List Char → List Char × List Char
  | '.' :: cs => splitDigits cs
  | cs => ([], cs)

/-- A sign taken off the front, and whether it is a minus. -/
def splitSign : List Char → Bool × List Char
  | '-' :: cs => (true, cs)
  | '+' :: cs => (false, cs)
  | cs => (false, cs)

/-- The exponent that ends a numeral: nothing, or `e`, an optional sign and digits up to the end. -/
def exponent? : List Char → Option Int
  | [] => some 0
  | c :: cs =>
    if c = 'e' ∨ c = 'E' then
      let (negative, digits) := splitSign cs
      if digits ≠ [] ∧ digits.all Char.isDigit then
        let magnitude : Int := Nat.ofDigitChars 10 digits 0
        some (if negative then -magnitude else magnitude)
      else none
    else none

/-- Digits with at most one point, at least one digit, and perhaps an exponent. -/
def decimal? (cs : List Char) : Option Decimal :=
  let (whole, afterWhole) := splitDigits cs
  let (fraction, tail) := splitFraction afterWhole
  if whole = [] ∧ fraction = [] then none
  else (exponent? tail).map fun e =>
    ⟨Nat.ofDigitChars 10 (whole ++ fraction) 0, e - fraction.length⟩

/-- A numeral without its sign. -/
def unsigned? (cs : List Char) : Option Numeral :=
  let lower := String.ofList (cs.map Char.toLower)
  if lower = "inf" ∨ lower = "infinity" then some .infinity
  else if lower = "nan" then some .notANumber
  else (decimal? cs).map .decimal

/-- The pattern nearest to a decimal. Exponents beyond the range of doubles are settled by size, so
that the power of ten that is computed stays within it. -/
def nearestToDecimal (d : Decimal) : Nat :=
  if d.digits = 0 then 0
  else if 310 < d.exponent then Number.infinityPattern
  else if d.exponent + (Nat.toDigits 10 d.digits).length < -330 then 0
  else Number.nearestPattern (d.digits * Nat.pow 10 d.exponent.toNat * Number.quantaInOne)
    (Nat.pow 10 (-d.exponent).toNat)

/-- The number that a numeral with the given sign denotes. -/
def toNumber (negative : Bool) : Numeral → Number
  | infinity => .ofPattern negative Number.infinityPattern
  | notANumber => .notANumber
  | decimal d => .ofPattern negative (nearestToDecimal d)

/-- The number that the characters spell, if they are a numeral. -/
def read? (cs : List Char) : Option Number :=
  let (negative, magnitude) := splitSign cs
  (unsigned? magnitude).map (toNumber negative)

/-- The number that a text spells, white space at its ends apart. -/
def readTrimmed? (text : String) : Option Number :=
  read? (Text.trim text.toList)

end Numeral

end Reckon
