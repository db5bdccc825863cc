/-!
# Numbers and their exact values

A number of the language is a double. Its finite values are whole multiples of one quantum,
`2⁻¹⁰⁷⁴`, the least positive double, so that a finite number is a sign and a natural number of
quanta, exactly. This file reads that natural off the bits of a number and, in the other
direction, finds the double nearest to a fraction of quanta. All text of numbers, read or written,
goes through these two maps and never through an approximation.

The bits of a number without its sign are called its *pattern*. Patterns are ordered as the
magnitudes are, and the successor of a pattern belongs to the next double.

* `Number.quantaInOne` — the unit in quanta;
* `Number.quantaOf` — the exact magnitude that a finite pattern stands for;
* `nearestPattern` — the pattern nearest to a fraction, ties to the even one.
-/

namespace Reckon

/-- A number of the language: an IEEE double. -/
abbrev Number := Float

/-- The quotient `num / den` rounded to the nearest natural number, a tie to the even one. -/
def roundHalfEven (num den : Nat) : Nat :=
  let q := num / den
  let r := num % den
  if 2 * r < den then q else if den < 2 * r then q + 1 else q + q % 2

/-- The rounded quotient is within half a unit of the exact one. -/
theorem roundHalfEven_near (num den : Nat) (h : 0 < den) :
    2 * (roundHalfEven num den * den) ≤ 2 * num + den ∧
      2 * num ≤ 2 * (roundHalfEven num den * den) + den := by
  have hsplit : den * (num / den) + num % den = num := Nat.div_add_mod num den
  have hlt : num % den < den := Nat.mod_lt _ h
  have hmul : num / den * den = den * (num / den) := Nat.mul_comm ..
  simp only [roundHalfEven]
  split
  · omega
  · split
    · rw [Nat.add_mul]; omega
    · rcases Nat.mod_two_eq_zero_or_one (num / den) with hq | hq <;>
        simp only [hq, Nat.add_mul] <;> omega

namespace Number

/-- A quantum is this negative power of two. Its value is kept apart, so that no power of this size
is computed while something is proved about it. -/
@[irreducible]
def quantaExponent : Nat := 1074

theorem quantaExponent_eq : quantaExponent = 1074 := by rw [quantaExponent]

/-- The number of quanta in `1`. -/
def quantaInOne : Nat := Nat.pow 2 quantaExponent

theorem quantaInOne_pos : 0 < quantaInOne := Nat.pow_pos Nat.two_pos

/-- The pattern of infinity. Every smaller pattern is that of a finite number. -/
def infinityPattern : Nat := 0x7FF0000000000000

/-- The bits of a number without its sign. -/
def pattern (x : Number) : Nat := x.toBits.toNat % Nat.pow 2 63

/-- Whether the sign bit is set. It is for `-0`, too. -/
def isNegative (x : Number) : Bool := Nat.pow 2 63 ≤ x.toBits.toNat

/-- The number with the given sign and pattern. -/
def ofPattern (negative : Bool) (pattern : Nat) : Number :=
  Float.ofBits (UInt64.ofNat (if negative then Nat.pow 2 63 + pattern else pattern))

/-- The number that is no number, the result of an operation without one. -/
def notANumber : Number := Float.ofBits 0x7FF8000000000000

/-- The magnitude of a finite pattern in quanta: below `2 ^ 52` the pattern itself, above it a
significand of 53 bits, shifted by what the upper bits say. -/
def quantaOf (pattern : Nat) : Nat :=
  if pattern < Nat.pow 2 52 then pattern
  else (Nat.pow 2 52 + pattern % Nat.pow 2 52) * Nat.pow 2 (pattern / Nat.pow 2 52 - 1)

/-- The magnitude of a finite number in quanta. -/
def quanta (x : Number) : Nat := quantaOf x.pattern

/-- The pattern nearest to `num / den` quanta, a tie to the even one. Half a unit above the
greatest finite number and from there on it is infinity. -/
def nearestPattern (num den : Nat) : Nat :=
  -- The shift keeps 53 significant bits; a carry in the rounding lands on the next binade.
  let shift := (num / den).log2 - 52
  min infinityPattern (shift * Nat.pow 2 52 + roundHalfEven num (den * Nat.pow 2 shift))

/-- The text of a number, given the text of its pattern when it is finite. A sign is written where
the sign bit is set, for zero and infinity as well, but never before `NaN`. -/
def spell (finite : Nat → String) (x : Number) : String :=
  if x.isNaN then "NaN"
  else (if x.isNegative then "-" else "") ++ (if x.isInf then "inf" else finite x.pattern)

end Number

end Reckon
