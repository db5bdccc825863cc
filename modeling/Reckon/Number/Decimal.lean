/-!
# Decimals

A decimal is a natural number of digits together with a power of ten. It is what a written number
says before it is rounded, and what is chosen to be written for a number.
-/

namespace Reckon

/-- The decimal `digits · 10 ^ exponent`. -/
structure Decimal where
  /-- The digits, read as one natural number. -/
  digits : Nat
  /-- The power of ten of the last digit. -/
  exponent : Int
deriving DecidableEq, Repr

namespace Decimal

/-- The digits with a point before the last `places` of them, and zeros in front as far as the
point needs them. -/
def pointed (digits places : Nat) : List Char :=
  let written := Nat.toDigits 10 digits
  let padded := List.replicate (places + 1 - written.length) '0' ++ written
  let whole := padded.length - places
  padded.take whole ++ '.' :: padded.drop whole

/-- The decimal in positional notation, without an exponent. A whole number has no point. -/
def positional (d : Decimal) : String :=
  if 0 ≤ d.exponent then
    String.ofList (Nat.toDigits 10 d.digits ++ List.replicate d.exponent.toNat '0')
  else String.ofList (pointed d.digits (-d.exponent).toNat)

/-- The power of ten of the first digit. -/
def leadingExponent (d : Decimal) : Int :=
  d.exponent + (Nat.toDigits 10 d.digits).length - 1

/-- The decimal with one digit before the point and an exponent after `e`. A single digit has no
point, and the exponent no plus sign. -/
def scientific (d : Decimal) : String :=
  let mantissa := match Nat.toDigits 10 d.digits with
    | [] => []
    | [c] => [c]
    | c :: cs => c :: '.' :: cs
  String.ofList mantissa ++ "e" ++ toString d.leadingExponent

end Decimal

end Reckon
