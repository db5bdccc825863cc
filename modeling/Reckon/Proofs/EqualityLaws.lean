import Reckon.Proofs.EqualityAndOrder
/-!
# The laws of equality

Equality of the language does not depend on the order of its operands, although it has a tolerance
that is taken relative to one of them: it is the larger magnitude of the two, and the distance of two
numbers is the same from either side.  Both are facts about doubles.  A difference and its opposite
are rounded from the same magnitude, and are one number apart from the sign.

* `Number.abs_sub_swap` — the distance of two numbers is the same from either side;
* `Number.approxEq_comm`, `Number.approxEq_self_iff` — equality with a tolerance;
* `Value.CountsAs.equals_eq` — values that are no strings are equal as numbers;
* `equality_has_its_laws` — all of it, for values and for the two operators.
-/

open Float.Model (Format UnpackedFloat)
open Float.Model.UnpackedFloat

namespace Reckon

/-! ### Distances -/

namespace Number

section Unpacked

variable (spec : Format)

/-- Packed components stand for one magnitude, whatever the sign is. -/
theorem abs_unpack_packComponents (s t : Sign) (e : BitVec spec.exponentBits)
    (m : BitVec spec.mantissaBitsWithoutImplicit) :
    (unpack spec (packComponents spec s e m)).abs =
      (unpack spec (packComponents spec t e m)).abs := by
  simp only [unpack, unpackMantissa_packComponents, unpackExponent_packComponents]
  split_ifs <;> rfl

/-- Packing keeps a magnitude apart from the sign. -/
theorem abs_unpack_pack (u : UnpackedFloat) :
    (unpack spec (pack spec u)).abs = (unpack spec (pack spec u.abs)).abs := by
  cases u with
  | notANumber => rfl
  | infinity s => exact abs_unpack_packComponents ..
  | zero s => exact abs_unpack_packComponents ..
  | finite s m e hm =>
    simp only [UnpackedFloat.abs, pack]
    split_ifs <;> exact abs_unpack_packComponents ..

/-- Rounding does not look at the sign. -/
theorem abs_round (s t : Sign) (m : Nat) (e : Int) :
    (UnpackedFloat.round spec s m e).abs = (UnpackedFloat.round spec t m e).abs := by
  simp only [UnpackedFloat.round, roundWithAccuracy]
  split_ifs <;> rfl

/-- A number and its negative are rounded to one magnitude. -/
theorem abs_normalize_neg (m e : Int) (s : Sign) :
    (UnpackedFloat.normalize spec (-m) e s).abs = (UnpackedFloat.normalize spec m e s).abs := by
  obtain hneg | rfl | hpos := lt_trichotomy m 0
  · have hswap : 0 < -m := by omega
    simp only [UnpackedFloat.normalize, Int.compare_eq_lt.mpr hneg, Int.compare_eq_gt.mpr hswap]
    exact abs_round ..
  · rfl
  · have hswap : -m < 0 := by omega
    simp only [UnpackedFloat.normalize, Int.compare_eq_gt.mpr hpos, Int.compare_eq_lt.mpr hswap,
      neg_neg]
    exact abs_round ..

theorem abs_sub_unpacked (a b : UnpackedFloat) :
    (UnpackedFloat.sub spec a b).abs = (UnpackedFloat.sub spec b a).abs := by
  cases a with
  | notANumber => cases b <;> rfl
  | infinity s =>
    cases b with
    | infinity t => cases s <;> cases t <;> rfl
    | notANumber | zero t | finite t => rfl
  | zero s =>
    cases b with
    | zero t => cases s <;> cases t <;> rfl
    | notANumber | infinity t | finite t => rfl
  | finite s m e =>
    cases b with
    | notANumber | infinity t | zero t => rfl
    | finite t n f =>
      -- both differences are taken at the smaller exponent
      simp only [UnpackedFloat.sub, min_comm f e]
      rw [← abs_normalize_neg, neg_sub]

end Unpacked

variable {x y : Number}

/-- **The distance of two numbers** is the same from either side. -/
theorem abs_sub_swap (x y : Number) : (x - y).abs = (y - x).abs := by
  have hmagnitude : (x - y).toModel.unpack.abs = (y - x).toModel.unpack.abs := by
    change (unpack .binary64 (pack .binary64 _)).abs = (unpack .binary64 (pack .binary64 _)).abs
    rw [abs_unpack_pack, abs_sub_unpacked, ← abs_unpack_pack]
  exact congrArg (fun u => Float.ofModel (.pack u)) hmagnitude

/-- A magnitude is finite iff the number is. -/
theorem isFinite_abs (x : Number) : x.abs.isFinite = x.isFinite := by
  have hfinite (u : UnpackedFloat) : u.isFinite = u.abs.isFinite := by cases u <;> rfl
  have hmagnitude : x.abs.toModel.unpack.abs = x.toModel.unpack.abs := by
    change (unpack .binary64 (pack .binary64 _)).abs = _
    rw [← abs_unpack_pack, Float.Model.unpack, pack_unpack_of_valid x.toModel.valid]
  change x.abs.toModel.unpack.isFinite = x.toModel.unpack.isFinite
  rw [hfinite, hmagnitude, ← hfinite]

/-! ### Equality with a tolerance -/

theorem not_isNaN_of_isFinite (h : x.isFinite) : ¬ x.isNaN := by
  change x.toModel.unpack.isFinite at h
  change ¬ x.toModel.unpack.isNaN
  cases hx : x.toModel.unpack <;> simp_all [UnpackedFloat.isFinite, UnpackedFloat.isNaN]

theorem not_isFinite_of_isInf (h : x.isInf) : ¬ x.isFinite := by
  change x.toModel.unpack.isInf at h
  change ¬ x.toModel.unpack.isFinite
  cases hx : x.toModel.unpack <;> simp_all [UnpackedFloat.isFinite, UnpackedFloat.isInf]

theorem not_isNaN_of_isInf (h : x.isInf) : ¬ x.isNaN := by
  change x.toModel.unpack.isInf at h
  change ¬ x.toModel.unpack.isNaN
  cases hx : x.toModel.unpack <;> simp_all [UnpackedFloat.isNaN, UnpackedFloat.isInf]

/-- Of two finite numbers either may be looked at first, but for the signs of zeros. -/
theorem larger_comm_or_zeros (hx : x.isFinite) (hy : y.isFinite) :
    x.larger y = y.larger x ∨ (x = 0 ∧ y = -0) ∨ (x = -0 ∧ y = 0) := by
  have hnx := not_isNaN_of_isFinite hx
  have hny := not_isNaN_of_isFinite hy
  by_cases hsame : x == y
  · obtain ⟨-, -, heq | hzeros⟩ := Float.beq_iff_ne_nan_and_eq.mp hsame
    · rw [heq]
      exact .inl rfl
    · exact .inr hzeros
  · rcases lt_or_gt_of_finite hx hy hsame with hlt | hgt
    · have hnot : ¬ y < x := by
        rw [gt_iff_compare, lt_iff_compare.mp hlt]
        decide
      rw [larger, larger, if_neg hnx, if_neg hny, if_pos hlt, if_neg hnot]
      exact .inl rfl
    · have hnot : ¬ x < y := by
        rw [lt_iff_compare, gt_iff_compare.mp hgt]
        decide
      rw [larger, larger, if_neg hnx, if_neg hny, if_neg hnot, if_pos hgt]
      exact .inl rfl

/-- The tolerance is the same from either side. -/
theorem scale_comm (hx : x.isFinite) (hy : y.isFinite) :
    larger (larger x.abs y.abs) 1 = larger (larger y.abs x.abs) 1 := by
  rw [← isFinite_abs] at hx hy
  obtain heq | ⟨hx, hy⟩ | ⟨hx, hy⟩ := larger_comm_or_zeros hx hy
  · rw [heq]
  · rw [hx, hy]
    rfl
  · rw [hx, hy]
    rfl

theorem approxEq_comm (x y : Number) : x.approxEq y = y.approxEq x := by
  have hbeq : (x == y) = (y == x) := Bool.eq_iff_iff.mpr ⟨beq_symm, beq_symm⟩
  by_cases hx : x.isFinite
  · by_cases hy : y.isFinite
    · rw [approxEq, approxEq, hbeq, hx, hy, abs_sub_swap x y, scale_comm hx hy]
    · simp [approxEq, hbeq, hx, hy]
  · simp [approxEq, hbeq, hx]

/-- A number is equal to itself unless it is no number. -/
theorem approxEq_self_iff : x.approxEq x ↔ ¬ x.isNaN := by
  constructor
  · intro h
    obtain hsame | ⟨hfinite, -⟩ := beq_or_finite_of_approxEq h
    · simpa using hsame
    · exact not_isNaN_of_isFinite hfinite
  · intro h
    exact approxEq_of_beq (by simpa using h)

theorem approxEq_of_isNaN (h : x.isNaN) (y : Number) : x.approxEq y = false := by
  rw [Bool.eq_false_iff]
  intro heq
  obtain hsame | ⟨hfinite, -⟩ := beq_or_finite_of_approxEq heq
  · obtain ⟨hne, -⟩ := Float.beq_iff_ne_nan_and_eq.mp hsame
    exact hne (by simpa using h)
  · exact not_isNaN_of_isFinite hfinite h

/-- An infinity is equal to itself only. -/
theorem approxEq_iff_of_isInf (h : x.isInf) : x.approxEq y ↔ y = x := by
  constructor
  · intro heq
    obtain hsame | ⟨hfinite, -⟩ := beq_or_finite_of_approxEq heq
    · obtain ⟨-, -, rfl | ⟨rfl, -⟩ | ⟨rfl, -⟩⟩ := Float.beq_iff_ne_nan_and_eq.mp hsame
      · rfl
      · exact absurd h (by decide)
      · exact absurd h (by decide)
    · exact absurd hfinite (not_isFinite_of_isInf h)
  · intro heq
    rw [heq, approxEq_self_iff]
    exact not_isNaN_of_isInf h

end Number

/-! ### Equality of values -/

namespace Value

variable {a b : Value} {x y : Number}

/-- Values that are no strings are equal as the numbers that they count as. -/
theorem CountsAs.equals_eq (ha : a.CountsAs x) (hb : b.CountsAs y) :
    a.equals b = x.approxEq y := by
  obtain ⟨-, heq⟩ | ⟨-, heq⟩ | ⟨s, t, rfl, rfl⟩ := ha.equals_cases hb
  · exact heq
  · rw [heq, Number.approxEq_comm]
  · obtain rfl := ha.unique ⟨rfl, rfl⟩
    obtain rfl := hb.unique ⟨rfl, rfl⟩
    cases s <;> cases t <;> rfl

theorem equals_booleans_iff {s t : Bool} : (boolean s).equals (boolean t) ↔ s = t := beq_iff_eq

/-- A string is equal to itself and to nothing else. -/
theorem equals_iff_of_isString (h : a.isString ∨ b.isString) :
    a.equals b ↔ ∃ s, a = string s ∧ b = string s := by
  cases a with
  | string s =>
    cases b with
    | string t => simp [equals, @eq_comm _ t]
    | number y | boolean t => simp [equals]
  | number x | boolean s =>
    cases b with
    | string t => simp [equals]
    | number y | boolean t => simp [isString] at h

theorem equals_comm (a b : Value) : a.equals b = b.equals a := by
  by_cases hstring : a.isString ∨ b.isString
  · rw [Bool.eq_iff_iff, equals_iff_of_isString hstring, equals_iff_of_isString hstring.symm]
    exact exists_congr fun s => and_comm
  · obtain ⟨ha, hb⟩ := not_or.mp hstring
    obtain ⟨x, hx⟩ := exists_countsAs (Bool.eq_false_iff.mpr ha)
    obtain ⟨y, hy⟩ := exists_countsAs (Bool.eq_false_iff.mpr hb)
    rw [hx.equals_eq hy, hy.equals_eq hx, Number.approxEq_comm]

/-- A value is equal to itself unless it is what is no number. -/
theorem equals_self_iff : a.equals a ↔ ∀ x, a = number x → ¬ x.isNaN := by
  cases a with
  | number x =>
    rw [CountsAs.equals_eq ⟨rfl, rfl⟩ ⟨rfl, rfl⟩, Number.approxEq_self_iff]
    constructor
    · intro hx y hy
      rwa [← number.inj hy]
    · exact fun h => h x rfl
  | boolean s | string s => simp [equals]

/-- An infinity is equal to itself only, and no truth value counts as one. -/
theorem equals_iff_of_isInf (hx : x.isInf) : (number x).equals b ↔ b = number x := by
  cases b with
  | number y =>
    rw [CountsAs.equals_eq ⟨rfl, rfl⟩ ⟨rfl, rfl⟩, Number.approxEq_iff_of_isInf hx, number.injEq]
  | boolean t =>
    rw [CountsAs.equals_eq ⟨rfl, rfl⟩ ⟨rfl, rfl⟩, Number.approxEq_iff_of_isInf hx]
    refine iff_of_false ?_ (by simp)
    rintro rfl
    cases t <;> exact absurd hx (by decide)
  | string t => simp [equals]

theorem equals_of_isNaN (hx : x.isNaN) (b : Value) : (number x).equals b = false := by
  cases b with
  | number y | boolean t =>
    rw [CountsAs.equals_eq ⟨rfl, rfl⟩ ⟨rfl, rfl⟩, Number.approxEq_of_isNaN hx]
  | string t => rfl

end Value

open BinaryOp

/-- **Equality has its laws.**  It is symmetric, and everything but what is no number is equal to
itself.  Values that are no strings are equal as the numbers that they count as, and two truth
values only if they are the same; a string is equal to itself only, whatever number it reads as.  Of
the two operators neither ever fails, and one of them says the opposite of the other.  An infinity
is equal to itself only, and what is no number to nothing. -/
theorem equality_has_its_laws (a b : Value) :
    a.equals b = b.equals a ∧
    (a.equals a ↔ ∀ x, a = .number x → ¬ x.isNaN) ∧
    (a.isString = false → b.isString = false →
      ∃ x y, a.toNumber = .ok x ∧ b.toNumber = .ok y ∧ a.equals b = x.approxEq y) ∧
    (∀ s t, (Value.boolean s).equals (.boolean t) ↔ s = t) ∧
    (a.isString ∨ b.isString → (a.equals b ↔ ∃ s, a = .string s ∧ b = .string s)) ∧
    (equal.apply a b = .ok (.boolean (a.equals b)) ∧
      notEqual.apply a b = .ok (.boolean (!a.equals b))) ∧
    (∀ x : Number, x.isInf → ((Value.number x).equals b ↔ b = .number x)) ∧
    ∀ x : Number, x.isNaN → (Value.number x).equals b = false := by
  refine ⟨Value.equals_comm a b, Value.equals_self_iff, fun ha hb => ?numbers,
    fun s t => Value.equals_booleans_iff, Value.equals_iff_of_isString, ⟨rfl, rfl⟩,
    fun x => Value.equals_iff_of_isInf, fun x hx => Value.equals_of_isNaN hx b⟩
  case numbers =>
    obtain ⟨x, hx⟩ := Value.exists_countsAs ha
    obtain ⟨y, hy⟩ := Value.exists_countsAs hb
    exact ⟨x, y, hx.2, hy.2, hx.equals_eq hy⟩

/-- A truth value is equal to the number next to `1` from either side; the string `1` is equal to
neither of them, and an infinity to no truth value. -/
theorem truth_string_and_infinity_compared :
    let near := Value.number (1 + Number.epsilon)
    let infinity := Number.ofPattern true Number.infinityPattern
    (near.isString = false ∧ (Value.boolean true).isString = false ∧
      near.equals (.boolean true) = true ∧ (Value.boolean true).equals near = true ∧
      ∃ x y, near.toNumber = .ok x ∧ (Value.boolean true).toNumber = .ok y ∧
        near.equals (.boolean true) = x.approxEq y) ∧
    ((Value.string "1").isString ∧ (Value.string "1").equals near = false) ∧
    (infinity.isInf ∧ ((Value.number infinity).equals (.boolean true) ↔
      Value.boolean true = .number infinity)) ∧
    Number.notANumber.isNaN ∧ (Value.number .notANumber).equals (.boolean true) = false := by
  intro near infinity
  obtain ⟨hcomm, -, hnumbers, -, -, -, hinfinity, hnan⟩ :=
    equality_has_its_laws near (.boolean true)
  obtain ⟨-, -, -, -, hstring, -⟩ := equality_has_its_laws (.string "1") near
  have hnear : near.equals (.boolean true) = true := by decide
  have hone : (Value.string "1").equals near = false := by
    rw [Bool.eq_false_iff]
    intro heq
    obtain ⟨s, -, hs⟩ := (hstring (.inl rfl)).mp heq
    exact Value.noConfusion hs
  exact ⟨⟨rfl, rfl, hnear, hcomm ▸ hnear, hnumbers rfl rfl⟩, ⟨rfl, hone⟩,
    ⟨by decide, hinfinity infinity (by decide)⟩, by decide, hnan _ (by decide)⟩

end Reckon
