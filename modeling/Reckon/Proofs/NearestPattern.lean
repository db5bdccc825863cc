import Reckon.Proofs.NumberPatterns
/-!
# The nearest pattern

A pattern is a significand that is shifted: up to `2 ^ 53` quanta there is no shift, and from there
on the significand has 53 bits.  A fraction is rounded at the shift that its whole part has, so that
it goes to the pattern whose significand is nearest, and a pattern's own magnitude goes back to the
pattern.

* `roundHalfEven_eq_of_near` — a quotient less than half a unit from a natural is rounded to it;
* `Number.quantaOf_shifted` — the magnitude of a pattern, by its significand and its shift;
* `Number.nearestPattern_quantaOf`, `Number.nearestPattern_eq_of_near` — fractions that go back to a
  pattern;
* `Number.nearestPattern_error` — how far a fraction is from what it is rounded to.
-/

namespace Reckon

/-! ### Rounded quotients -/

section Quotients

variable {num den n : Nat}

/-- A quotient that is more than a natural less half a unit is not rounded to less than it. -/
theorem le_roundHalfEven (hden : 0 < den) (h : 2 * (n * den) < 2 * num + den) :
    n ≤ roundHalfEven num den := by
  obtain ⟨-, hge⟩ := roundHalfEven_near num den hden
  have hlower : n * den < (roundHalfEven num den + 1) * den := by
    rw [Nat.add_one_mul]
    omega
  exact Nat.lt_add_one_iff.mp (Nat.lt_of_mul_lt_mul_right hlower)

/-- A quotient that is less than a natural and half a unit is not rounded to more than it. -/
theorem roundHalfEven_le (hden : 0 < den) (h : 2 * num < 2 * (n * den) + den) :
    roundHalfEven num den ≤ n := by
  obtain ⟨hle, -⟩ := roundHalfEven_near num den hden
  have hupper : roundHalfEven num den * den < (n + 1) * den := by
    rw [Nat.add_one_mul]
    omega
  exact Nat.lt_add_one_iff.mp (Nat.lt_of_mul_lt_mul_right hupper)

/-- A quotient less than half a unit from a natural is rounded to it. -/
theorem roundHalfEven_eq_of_near (hbelow : 2 * (n * den) < 2 * num + den)
    (habove : 2 * num < 2 * (n * den) + den) : roundHalfEven num den = n := by
  have hden : 0 < den := by omega
  exact Nat.le_antisymm (roundHalfEven_le hden habove) (le_roundHalfEven hden hbelow)

/-- A quotient that is exact is what it is. -/
theorem roundHalfEven_mul (n : Nat) (hden : 0 < den) : roundHalfEven (n * den) den = n :=
  roundHalfEven_eq_of_near (by omega) (by omega)

end Quotients

namespace Number

/-! ### Significands and shifts -/

/-- **The magnitude of a pattern**, by its significand and its shift.  A significand that is one more
than the greatest one is the least one of the next shift. -/
theorem quantaOf_shifted {shift m : Nat} (hm : m ≤ 2 ^ 53) (h : shift = 0 ∨ 2 ^ 52 ≤ m) :
    quantaOf (shift * 2 ^ 52 + m) = m * 2 ^ shift := by
  by_cases hsmall : m < 2 ^ 52
  · obtain rfl : shift = 0 := by omega
    rw [quantaOf, if_pos (by simp only [Nat.pow_eq]; omega)]
    omega
  have hnormal : ¬ shift * 2 ^ 52 + m < Nat.pow 2 52 := by
    simp only [Nat.pow_eq]
    omega
  rw [quantaOf, if_neg hnormal]
  simp only [Nat.pow_eq]
  by_cases hcarry : m < 2 ^ 53
  · have hquotient : (shift * 2 ^ 52 + m) / 2 ^ 52 - 1 = shift := by omega
    have hremainder : 2 ^ 52 + (shift * 2 ^ 52 + m) % 2 ^ 52 = m := by omega
    rw [hquotient, hremainder]
  · have hquotient : (shift * 2 ^ 52 + m) / 2 ^ 52 - 1 = shift + 1 := by omega
    have hremainder : 2 ^ 52 + (shift * 2 ^ 52 + m) % 2 ^ 52 = 2 ^ 52 := by omega
    rw [hquotient, hremainder, Nat.pow_succ]
    have heq : m = 2 ^ 53 := by omega
    rw [heq]
    ring

/-- Every pattern is a significand and a shift. -/
theorem exists_shifted (p : Nat) :
    ∃ shift m, p = shift * 2 ^ 52 + m ∧ m < 2 ^ 53 ∧ (shift = 0 ∨ 2 ^ 52 ≤ m) := by
  by_cases hsmall : p < 2 ^ 52
  · exact ⟨0, p, by omega, by omega, .inl rfl⟩
  · exact ⟨p / 2 ^ 52 - 1, p - (p / 2 ^ 52 - 1) * 2 ^ 52, by omega, by omega, .inr (by omega)⟩

/-- The shift of a whole part, by its size. -/
theorem log2_sub_eq {q shift : Nat} (hlt : q < 2 ^ (53 + shift))
    (hge : shift = 0 ∨ 2 ^ (52 + shift) ≤ q) : q.log2 - 52 = shift := by
  by_cases hzero : q = 0
  · subst hzero
    have hpos := Nat.two_pow_pos (52 + shift)
    simp only [Nat.log2_zero]
    omega
  have hupper := (Nat.log2_lt hzero).mpr hlt
  rcases hge with rfl | hge
  · omega
  · have hlower := (Nat.le_log2 hzero).mpr hge
    omega

/-- Every whole part has a shift. -/
theorem exists_shift (q : Nat) :
    ∃ shift, q < 2 ^ (53 + shift) ∧ (shift = 0 ∨ 2 ^ (52 + shift) ≤ q) := by
  refine ⟨q.log2 - 52, Nat.lt_of_lt_of_le Nat.lt_log2_self
    (Nat.pow_le_pow_right (by decide) (by omega)), ?_⟩
  by_cases hzero : q.log2 - 52 = 0
  · exact .inl hzero
  · have hne : q ≠ 0 := by
      rintro rfl
      exact hzero (by rw [Nat.log2_zero])
    exact .inr ((Nat.le_log2 hne).mp (by omega))

/-- A shifted significand of denominators counts the shifted denominator. -/
theorem mul_two_pow_mul (n shift den : Nat) : n * 2 ^ shift * den = n * (den * 2 ^ shift) := by
  rw [Nat.mul_assoc, Nat.mul_comm den]

variable {num den shift m : Nat}

/-- What a fraction is rounded to at the shift of its whole part. -/
theorem nearestPattern_of_shift (hlt : num / den < 2 ^ (53 + shift))
    (hge : shift = 0 ∨ 2 ^ (52 + shift) ≤ num / den)
    (hround : roundHalfEven num (den * 2 ^ shift) = m)
    (hp : shift * 2 ^ 52 + m ≤ infinityPattern) :
    nearestPattern num den = shift * 2 ^ 52 + m := by
  rw [nearestPattern, log2_sub_eq hlt hge]
  simp only [Nat.pow_eq, hround]
  exact Nat.min_eq_right hp

/-- **A pattern's magnitude** goes back to the pattern. -/
theorem nearestPattern_quantaOf {p : Nat} (hden : 0 < den) (hp : p ≤ infinityPattern) :
    nearestPattern (quantaOf p * den) den = p := by
  obtain ⟨shift, m, rfl, hm, hshift⟩ := exists_shifted p
  rw [quantaOf_shifted hm.le hshift]
  have hpos := Nat.two_pow_pos shift
  refine nearestPattern_of_shift ?_ ?_ ?_ hp
  · rw [Nat.mul_div_cancel _ hden, Nat.pow_add]
    exact Nat.mul_lt_mul_of_pos_right hm hpos
  · rw [Nat.mul_div_cancel _ hden, Nat.pow_add]
    exact hshift.imp id (Nat.mul_le_mul_right _)
  · rw [mul_two_pow_mul]
    exact roundHalfEven_mul m (Nat.mul_pos hden hpos)

/-- **A fraction near a pattern** goes to the pattern, if it lies less than half a unit from it.  The
least significand of a shift is left out, since below it the units are half as large. -/
theorem nearestPattern_eq_of_near (hden : 0 < den) (hm : m < 2 ^ 53) (hleast : 2 ^ 52 < m)
    (hp : shift * 2 ^ 52 + m ≤ infinityPattern)
    (hbelow : 2 * (m * (den * 2 ^ shift)) < 2 * num + den * 2 ^ shift)
    (habove : 2 * num < 2 * (m * (den * 2 ^ shift)) + den * 2 ^ shift) :
    nearestPattern num den = shift * 2 ^ 52 + m := by
  refine nearestPattern_of_shift ?_ (.inr ?_) (roundHalfEven_eq_of_near hbelow habove) hp
  · rw [Nat.div_lt_iff_lt_mul hden, Nat.pow_add, mul_two_pow_mul]
    have hgreatest := Nat.mul_le_mul_right (den * 2 ^ shift) (Nat.le_sub_one_of_lt hm)
    omega
  · rw [Nat.le_div_iff_mul_le hden, Nat.pow_add, mul_two_pow_mul]
    have hleast := Nat.mul_le_mul_right (den * 2 ^ shift) (Nat.succ_le_of_lt hleast)
    omega

/-- **How far a fraction is** from what it is rounded to, if it is less than `2 ^ (53 + k)`: half of
`2 ^ k` quanta at most. -/
theorem nearestPattern_error {k : Nat} (hden : 0 < den) (hk : k ≤ 2044)
    (hsmall : num < 2 ^ (53 + k) * den) :
    nearestPattern num den < infinityPattern ∧
      2 * (quantaOf (nearestPattern num den) * den) ≤ 2 * num + den * 2 ^ k ∧
      2 * num ≤ 2 * (quantaOf (nearestPattern num den) * den) + den * 2 ^ k := by
  obtain ⟨shift, hlt, hge⟩ := exists_shift (num / den)
  have hle : shift ≤ k := by
    have hwhole : num / den < 2 ^ (53 + k) := (Nat.div_lt_iff_lt_mul hden).mpr hsmall
    rcases hge with rfl | hge
    · exact Nat.zero_le k
    · have hexponents := (Nat.pow_lt_pow_iff_right (by decide)).mp (Nat.lt_of_le_of_lt hge hwhole)
      omega
  have hpos : 0 < den * 2 ^ shift := Nat.mul_pos hden (Nat.two_pow_pos shift)
  set m := roundHalfEven num (den * 2 ^ shift) with hround
  have hm : m ≤ 2 ^ 53 := by
    rw [Nat.div_lt_iff_lt_mul hden, Nat.pow_add, mul_two_pow_mul] at hlt
    exact roundHalfEven_le hpos (by omega)
  have hleast : shift = 0 ∨ 2 ^ 52 ≤ m := by
    refine hge.imp id fun hge => le_roundHalfEven hpos ?_
    rw [Nat.le_div_iff_mul_le hden, Nat.pow_add, mul_two_pow_mul] at hge
    omega
  have hinfinity := infinityPattern_eq
  rw [nearestPattern_of_shift hlt hge hround.symm (by omega), quantaOf_shifted hm hleast]
  obtain ⟨hover, hunder⟩ := roundHalfEven_near num (den * 2 ^ shift) hpos
  rw [← hround] at hover hunder
  have hunit : den * 2 ^ shift ≤ den * 2 ^ k :=
    Nat.mul_le_mul_left den (Nat.pow_le_pow_right (by decide) hle)
  rw [mul_two_pow_mul]
  exact ⟨by omega, by omega, by omega⟩

end Number

end Reckon
