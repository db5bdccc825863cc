import Mathlib
import Reckon.Number.Numeral
/-!
# Numbers by their patterns

A number is its sign and its pattern, and the pattern says what it is: the patterns below that of
infinity are those of finite numbers, and the ones above it are those of what is no number.  A
finite pattern has the exact value of the number, counted in quanta.

* `Number.unpack_cases` — what a number is, by its pattern;
* `Number.ofPattern_pattern`, `Number.pattern_ofPattern` — a number is its sign and its pattern;
* `Number.abs_value_mul` — quanta are the exact value of a finite number.
-/

open Float.Model (Format UnpackedFloat)
open Float.Model.UnpackedFloat

namespace Reckon

namespace Number

/-! ### The fields of a word -/

section Fields

variable (b : BitVec 64)

theorem toNat_unpackMantissa :
    (@unpackMantissa .binary64 b).toNat = b.toNat % 2 ^ 63 % 2 ^ 52 := by
  rw [unpackMantissa_def, BitVec.extractLsb'_toNat]
  change b.toNat % 2 ^ 52 = _
  omega

theorem toNat_unpackExponent :
    (@unpackExponent .binary64 b).toNat = b.toNat % 2 ^ 63 / 2 ^ 52 := by
  rw [unpackExponent_def, BitVec.extractLsb'_toNat, Nat.shiftRight_eq_div_pow]
  change b.toNat / 2 ^ 52 % 2 ^ 11 = _
  omega

theorem unpackMantissa_eq_zero_iff :
    @unpackMantissa .binary64 b = 0#52 ↔ b.toNat % 2 ^ 63 % 2 ^ 52 = 0 := by
  rw [← BitVec.toNat_inj, toNat_unpackMantissa, BitVec.toNat_ofNat, Nat.zero_mod]

theorem unpackExponent_eq_zero_iff :
    @unpackExponent .binary64 b = 0#11 ↔ b.toNat % 2 ^ 63 / 2 ^ 52 = 0 := by
  rw [← BitVec.toNat_inj, toNat_unpackExponent, BitVec.toNat_ofNat, Nat.zero_mod]

theorem unpackExponent_eq_ones_iff :
    @unpackExponent .binary64 b = -1#11 ↔ b.toNat % 2 ^ 63 / 2 ^ 52 = 2047 := by
  rw [← BitVec.toNat_inj, toNat_unpackExponent]
  rfl

/-- The leading bit of a significand, which is not kept in the word, is put in front. -/
theorem toNat_significand :
    (1#1 ++ @unpackMantissa .binary64 b).toNat = 2 ^ 52 + b.toNat % 2 ^ 63 % 2 ^ 52 := by
  have hor := Nat.two_pow_add_eq_or_of_lt (Nat.mod_lt (b.toNat % 2 ^ 63) (Nat.two_pow_pos 52)) 1
  rw [mul_one] at hor
  rw [BitVec.toNat_append, toNat_unpackMantissa, Nat.shiftLeft_eq]
  exact hor.symm

theorem ofBitVec_unpackSign :
    Sign.ofBitVec (@unpackSign .binary64 b) =
      if 2 ^ 63 ≤ b.toNat then .negative else .positive := by
  have hsign : (@unpackSign .binary64 b).toNat = b.toNat / 2 ^ 63 % 2 := by
    rw [unpackSign_def, BitVec.extractLsb'_toNat, Nat.shiftRight_eq_div_pow]
    rfl
  have hzero : @unpackSign .binary64 b = 0#1 ↔ ¬ 2 ^ 63 ≤ b.toNat := by
    have hlt : b.toNat < 2 ^ 64 := b.isLt
    rw [← BitVec.toNat_inj, hsign, BitVec.toNat_ofNat]
    omega
  simp only [Sign.ofBitVec, hzero, ite_not]

end Fields

/-! ### What a number is -/

variable {x : Number}

/-- The sign of a number as its bits have it. -/
def sign (x : Number) : Sign := if x.isNegative then .negative else .positive

theorem infinityPattern_eq : infinityPattern = 2047 * 2 ^ 52 := rfl

/-- **What a number is**, by its pattern. -/
theorem unpack_cases (x : Number) :
    (x.toModel.unpack = .notANumber ∧ infinityPattern < x.pattern) ∨
      (x.toModel.unpack = .infinity x.sign ∧ x.pattern = infinityPattern) ∨
      (x.toModel.unpack = .zero x.sign ∧ x.pattern = 0) ∨
      ∃ (m shift : Nat) (hm : 0 < m), x.toModel.unpack = .finite x.sign m (shift - 1074) hm ∧
        x.pattern < infinityPattern ∧ m * 2 ^ shift = x.quanta := by
  set b := x.toModel.toBits.toBitVec with hb
  have hpattern : b.toNat % 2 ^ 63 = x.pattern := rfl
  have hsign : Sign.ofBitVec (@unpackSign .binary64 b) = x.sign := by
    rw [ofBitVec_unpackSign, sign, isNegative]
    simp only [decide_eq_true_eq]
    rfl
  have hlt : x.pattern < 2 ^ 63 := Nat.mod_lt _ (by decide)
  have hinfinity := infinityPattern_eq
  have hbias : (Format.binary64.exponentBias : Int) +
    (Format.binary64.mantissaBitsWithoutImplicit : Int) = 1075 := rfl
  rw [Float.Model.unpack, ← hb, unpack, hsign, hbias, toNat_unpackExponent, hpattern]
  split_ifs with hall hfraction hnone hfraction
  · rw [unpackExponent_eq_ones_iff, hpattern] at hall
    rw [unpackMantissa_eq_zero_iff, hpattern] at hfraction
    exact .inr (.inl ⟨rfl, by omega⟩)
  · rw [unpackExponent_eq_ones_iff, hpattern] at hall
    rw [unpackMantissa_eq_zero_iff, hpattern] at hfraction
    exact .inl ⟨rfl, by omega⟩
  · rw [unpackExponent_eq_zero_iff, hpattern] at hnone
    rw [unpackMantissa_eq_zero_iff, hpattern] at hfraction
    exact .inr (.inr (.inl ⟨rfl, by omega⟩))
  · -- below the first binade the pattern is the significand
    rw [unpackExponent_eq_zero_iff, hpattern] at hnone
    rw [unpackMantissa_eq_zero_iff, hpattern] at hfraction
    have hm := toNat_unpackMantissa b
    have hexponent : ((x.pattern / 2 ^ 52 : Nat) : Int) - 1075 + 1 = (0 : Nat) - 1074 := by omega
    rw [quanta, quantaOf, if_pos (by simp only [Nat.pow_eq]; omega)]
    simp only [hexponent]
    refine .inr (.inr (.inr ⟨_, _, by omega, rfl, by omega, ?_⟩))
    rw [hm, hpattern]
    omega
  · rw [unpackExponent_eq_ones_iff, hpattern] at hall
    rw [unpackExponent_eq_zero_iff, hpattern] at hnone
    have hm := toNat_significand b
    have hexponent : ((x.pattern / 2 ^ 52 : Nat) : Int) - 1075 =
      (x.pattern / 2 ^ 52 - 1 : Nat) - 1074 := by omega
    rw [quanta, quantaOf, if_neg (by simp only [Nat.pow_eq]; omega)]
    simp only [hexponent]
    refine .inr (.inr (.inr ⟨_, _, by omega, rfl, by omega, ?_⟩))
    rw [hm]
    rfl

theorem isNaN_iff : x.isNaN ↔ infinityPattern < x.pattern := by
  change x.toModel.unpack.isNaN ↔ _
  obtain ⟨hx, hp⟩ | ⟨hx, hp⟩ | ⟨hx, hp⟩ | ⟨m, shift, hm, hx, hp, -⟩ := unpack_cases x
  · simp [hx, hp]
  · simp [hx, hp]
  · simp [hx, hp]
  · simp [hx, hp.le]

theorem isInf_iff : x.isInf ↔ x.pattern = infinityPattern := by
  change x.toModel.unpack.isInf ↔ _
  obtain ⟨hx, hp⟩ | ⟨hx, hp⟩ | ⟨hx, hp⟩ | ⟨m, shift, hm, hx, hp, -⟩ := unpack_cases x
  · simp [hx, UnpackedFloat.isInf, hp.ne']
  · simp [hx, UnpackedFloat.isInf, hp]
  · simp [hx, UnpackedFloat.isInf, hp, infinityPattern]
  · simp [hx, UnpackedFloat.isInf, hp.ne]

/-- A number without a minus sign is not negative. -/
theorem nonneg_of_not_isNegative (hsign : x.isNegative = false) (h : ¬ x.isNaN) : 0 ≤ x := by
  have hzero : (0 : Number).toModel.unpack = .zero .positive := rfl
  have hpositive : x.sign = .positive := by
    rw [sign, hsign]
    rfl
  change Float.le 0 x = true
  refine decide_eq_true ?_
  change (0 : Number).toModel.unpack.le x.toModel.unpack = true
  obtain ⟨-, hp⟩ | ⟨hx, -⟩ | ⟨hx, -⟩ | ⟨m, shift, hm, hx, -⟩ := unpack_cases x
  · exact absurd (isNaN_iff.mpr hp) h
  · rw [hzero, hx, hpositive]
    rfl
  · rw [hzero, hx, hpositive]
    rfl
  · rw [hzero, hx, hpositive]
    rfl

/-! ### Signs and patterns -/

/-- A number is made of its sign and its pattern. -/
theorem ofPattern_pattern (x : Number) : ofPattern x.isNegative x.pattern = x := by
  have hlt : x.toBits.toNat < 2 ^ 64 := x.toBits.toNat_lt
  have hbits : (if x.isNegative then Nat.pow 2 63 + x.pattern else x.pattern) =
      x.toBits.toNat := by
    simp only [isNegative, pattern, decide_eq_true_eq, Nat.pow_eq]
    split_ifs <;> omega
  rw [ofPattern, hbits, UInt64.ofNat_toNat, Float.ofBits_toBits]

/-- A word whose pattern is not above that of infinity is kept as it is. -/
theorem toBits_ofBits {bits : UInt64} (h : bits.toNat % 2 ^ 63 ≤ infinityPattern) :
    (Float.ofBits bits).toBits = bits := by
  have hinfinity := infinityPattern_eq
  have hnumber : @isNaNBits .binary64 bits.toBitVec = false := by
    refine decide_eq_false fun hnan => hnan.2 ((unpackMantissa_eq_zero_iff _).mpr ?_)
    have hall := (unpackExponent_eq_ones_iff _).mp hnan.1
    rw [UInt64.toNat_toBitVec] at hall ⊢
    omega
  change UInt64.ofBitVec (pack .binary64 (unpack .binary64 bits.toBitVec)) = bits
  rw [pack_unpack, hnumber]
  rfl

theorem toNat_toBits_ofPattern (negative : Bool) {p : Nat} (h : p ≤ infinityPattern) :
    (ofPattern negative p).toBits.toNat = if negative then 2 ^ 63 + p else p := by
  have hinfinity := infinityPattern_eq
  have hlt : (if negative then Nat.pow 2 63 + p else p) < 2 ^ 64 := by
    rw [Nat.pow_eq]
    split_ifs <;> omega
  have htoNat := UInt64.toNat_ofNat_of_lt' hlt
  rw [ofPattern, toBits_ofBits, htoNat, Nat.pow_eq]
  rw [htoNat, Nat.pow_eq]
  split_ifs <;> omega

@[simp] theorem pattern_ofPattern (negative : Bool) {p : Nat} (h : p ≤ infinityPattern) :
    (ofPattern negative p).pattern = p := by
  have hinfinity := infinityPattern_eq
  rw [pattern, toNat_toBits_ofPattern negative h, Nat.pow_eq]
  split_ifs <;> omega

@[simp] theorem isNegative_ofPattern (negative : Bool) {p : Nat} (h : p ≤ infinityPattern) :
    (ofPattern negative p).isNegative = negative := by
  have hinfinity := infinityPattern_eq
  rw [isNegative, toNat_toBits_ofPattern negative h, Nat.pow_eq]
  cases negative with
  | false => exact decide_eq_false (by simp; omega)
  | true => exact decide_eq_true (by simp)

theorem not_isNaN_ofPattern (negative : Bool) {p : Nat} (h : p ≤ infinityPattern) :
    ¬ (ofPattern negative p).isNaN := by
  rw [isNaN_iff, pattern_ofPattern negative h]
  omega

/-- What is no number is one value. -/
theorem eq_notANumber_of_isNaN (h : x.isNaN) : x = notANumber := by
  have hx : x = Float.nan := by simpa using h
  rw [hx]
  rfl

theorem nearestPattern_le (num den : Nat) : nearestPattern num den ≤ infinityPattern :=
  Nat.min_le_left ..

/-! ### Exact values -/

/-- The exact value of a finite number, and `0` of the others. -/
def value (x : Number) : ℚ :=
  match x.toModel.unpack with
  | .finite s m e _ => s.apply m * 2 ^ e
  | _ => 0

/-- **Quanta are the exact value**, apart from the sign. -/
theorem abs_value_mul (h : x.pattern < infinityPattern) : |x.value| * quantaInOne = x.quanta := by
  obtain ⟨-, hp⟩ | ⟨-, hp⟩ | ⟨hx, hp⟩ | ⟨m, shift, hm, hx, -, hquanta⟩ := unpack_cases x
  · omega
  · omega
  · have hzero : x.quanta = 0 := by
      rw [quanta, hp]
      rfl
    rw [value, hx, hzero, abs_zero, zero_mul, Nat.cast_zero]
  · have hmagnitude : |((x.sign.apply m : Int) : ℚ)| = m := by
      cases x.sign <;> simp [Sign.apply]
    have hexponent : ((quantaExponent : Nat) : Int) = 1074 := by rw [quantaExponent_eq]; rfl
    have hone : ((quantaInOne : Nat) : ℚ) = 2 ^ (1074 : Int) := by
      rw [← hexponent, quantaInOne, Nat.pow_eq, Nat.cast_pow, Nat.cast_ofNat, zpow_natCast]
    simp only [value, hx]
    rw [abs_mul, hmagnitude, abs_of_pos (by positivity), zpow_sub₀ two_ne_zero, mul_assoc, hone,
      div_mul_cancel₀ _ (by positivity), ← hquanta, zpow_natCast, Nat.cast_mul, Nat.cast_pow,
      Nat.cast_ofNat]

theorem le_abs_value_iff (h : x.pattern < infinityPattern) (n : Nat) :
    n ≤ |x.value| ↔ n * quantaInOne ≤ x.quanta := by
  have hpos : (0 : ℚ) < quantaInOne := Nat.cast_pos.mpr quantaInOne_pos
  rw [← mul_le_mul_iff_of_pos_right hpos, abs_value_mul h, ← Nat.cast_mul, Nat.cast_le]

/-- A whole number has whole multiples of the quanta in `1`. -/
theorem quantaInOne_dvd (h : x.pattern < infinityPattern) {n : Int} (hn : x.value = n) :
    quantaInOne ∣ x.quanta := by
  have hmagnitude : ((n.natAbs : Nat) : ℚ) = |x.value| := by rw [hn, Nat.cast_natAbs, Int.cast_abs]
  have hquanta := abs_value_mul h
  rw [← hmagnitude, ← Nat.cast_mul, Nat.cast_inj] at hquanta
  exact ⟨n.natAbs, by rw [← hquanta, Nat.mul_comm]⟩

end Number

/-- What a decimal is rounded to is finite or infinite. -/
theorem Numeral.nearestToDecimal_le (d : Decimal) :
    nearestToDecimal d ≤ Number.infinityPattern := by
  unfold nearestToDecimal
  split_ifs
  · exact Nat.zero_le _
  · exact Nat.le_refl _
  · exact Nat.zero_le _
  · exact Number.nearestPattern_le ..

end Reckon
