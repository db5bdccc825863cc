import Reckon.Proofs.NearestPattern
import Reckon.Proofs.NumberRuns
import Reckon.Value
/-!
# The text of a number is read back

The text of a number has six digits after the point, and so it does not say which number it is of.
But it is stable: it is read as a number that has the same text.  Below `2 ^ 33` doubles are closer
to each other than millionths, so that the nearest double still says which millionth was written.
From `2 ^ 33` on millionths are closer than doubles, and the number itself is found again.  A power
of two is a special case, since doubles are closer below it than above, but there it is a whole
number, which is written exactly.

* `Number.millionths_stable` — millionths are found again in the number nearest to them;
* `Number.nearestPattern_millionths` — the number is found again in its millionths;
* `Numeral.decimal?_pointed` — digits with a point are read back;
* `number_text_reads_back` — all of it, for every number and its text as a value.
-/

namespace Reckon

namespace Number

/-! ### Millionths -/

/-- The quanta in `1`, with an exponent that is kept apart from its value, so that no power is
computed. -/
theorem exists_quantaInOne_eq : ∃ k, k = 1054 ∧ quantaInOne = 2 ^ (k + 20) := by
  have hexponent := quantaExponent_eq
  refine ⟨quantaExponent - 20, by omega, ?_⟩
  rw [quantaInOne, Nat.sub_add_cancel (by omega), Nat.pow_eq]

theorem millionths_eq (q : Nat) : millionths q = roundHalfEven (q * 10 ^ 6) quantaInOne := rfl

/-- A whole number has no digits after the point. -/
theorem millionths_mul (n : Nat) : millionths (n * quantaInOne) = n * 10 ^ 6 := by
  rw [millionths_eq, Nat.mul_right_comm]
  exact roundHalfEven_mul _ quantaInOne_pos

/-- **Below `2 ^ 33` numbers are closer than millionths:** a count of millionths is found again in
the number that is nearest to it. -/
theorem millionths_nearestPattern {n : Nat} (h : n < 2 ^ 33 * 10 ^ 6) :
    nearestPattern (n * quantaInOne) (10 ^ 6) < infinityPattern ∧
      millionths (quantaOf (nearestPattern (n * quantaInOne) (10 ^ 6))) = n := by
  obtain ⟨k, hk, hone⟩ := exists_quantaInOne_eq
  rw [Nat.pow_add] at hone
  have hsmall : n * quantaInOne < 2 ^ (53 + k) * 10 ^ 6 := by
    have hlt := Nat.mul_lt_mul_of_pos_right h (Nat.two_pow_pos k)
    rw [Nat.pow_add, hone, ← Nat.mul_assoc]
    omega
  obtain ⟨hfinite, hover, hunder⟩ := nearestPattern_error (by norm_num) (by omega) hsmall
  have hpos := Nat.two_pow_pos k
  rw [millionths_eq]
  exact ⟨hfinite, roundHalfEven_eq_of_near (by omega) (by omega)⟩

/-- **From `2 ^ 33` on millionths are closer than numbers**, and whole numbers are whole millionths,
so that the number is found again. -/
theorem nearestPattern_millionths {p : Nat} (hp : p < infinityPattern)
    (h : quantaInOne ∣ quantaOf p ∨ 2 ^ 33 * quantaInOne ≤ quantaOf p) :
    nearestPattern (millionths (quantaOf p) * quantaInOne) (10 ^ 6) = p := by
  have hexact (hwhole : quantaInOne ∣ quantaOf p) :
      nearestPattern (millionths (quantaOf p) * quantaInOne) (10 ^ 6) = p := by
    obtain ⟨n, hn⟩ := hwhole
    have hquanta : millionths (quantaOf p) * quantaInOne = quantaOf p * 10 ^ 6 := by
      rw [hn, Nat.mul_comm quantaInOne, millionths_mul, Nat.mul_right_comm]
    rw [hquanta]
    exact nearestPattern_quantaOf (by norm_num) hp.le
  obtain hwhole | hlarge := h
  · exact hexact hwhole
  obtain ⟨k, hk, hone⟩ := exists_quantaInOne_eq
  obtain ⟨shift, m, rfl, hm, hleast⟩ := exists_shifted p
  rw [quantaOf_shifted hm.le hleast] at *
  have hshift : k < shift := by
    by_contra hnot
    have hunit : 2 ^ shift ≤ 2 ^ k := Nat.pow_le_pow_right (by decide) (by omega)
    have hproduct := Nat.mul_le_mul (Nat.le_sub_one_of_lt hm) hunit
    have hpos := Nat.two_pow_pos k
    rw [Nat.pow_add] at hone
    omega
  by_cases heq : m = 2 ^ 52
  · -- a power of two is a whole number here
    refine hexact ?_
    rw [hone, heq, ← Nat.pow_add]
    exact Nat.pow_dvd_pow 2 (by omega)
  · have hunit : 2 * 2 ^ k ≤ 2 ^ shift := by
      rw [← Nat.pow_succ']
      exact Nat.pow_le_pow_right (by decide) hshift
    have hscale := mul_two_pow_mul m shift (10 ^ 6)
    have hpos := Nat.two_pow_pos k
    obtain ⟨hover, hunder⟩ := roundHalfEven_near (m * 2 ^ shift * 10 ^ 6) quantaInOne quantaInOne_pos
    rw [← millionths_eq] at hover hunder
    rw [Nat.pow_add] at hone
    exact nearestPattern_eq_of_near (by norm_num) hm (by omega) hp.le (by omega) (by omega)

/-- **What millionths say is what is read back.** -/
theorem millionths_stable {p : Nat} (hp : p < infinityPattern) :
    nearestPattern (millionths (quantaOf p) * quantaInOne) (10 ^ 6) < infinityPattern ∧
      millionths (quantaOf (nearestPattern (millionths (quantaOf p) * quantaInOne) (10 ^ 6))) =
        millionths (quantaOf p) := by
  by_cases hlarge : 2 ^ 33 * quantaInOne ≤ quantaOf p
  · rw [nearestPattern_millionths hp (.inr hlarge)]
    exact ⟨hp, rfl⟩
  have hle : millionths (quantaOf p) ≤ 2 ^ 33 * 10 ^ 6 := by
    rw [millionths_eq]
    have hpos := quantaInOne_pos
    exact roundHalfEven_le hpos (by omega)
  obtain hlt | heq := hle.lt_or_eq
  · exact millionths_nearestPattern hlt
  · -- what was rounded up to `2 ^ 33` is read as `2 ^ 33`, which has a pattern of its own
    have hpower : quantaOf (1055 * 2 ^ 52 + 2 ^ 52) = 2 ^ 33 * quantaInOne := by
      obtain ⟨k, hk, hone⟩ := exists_quantaInOne_eq
      have hexponents : 52 + 1055 = 33 + (k + 20) := by omega
      rw [quantaOf_shifted (by decide) (.inr le_rfl), hone, ← Nat.pow_add, hexponents, Nat.pow_add]
    have hscale : 2 ^ 33 * 10 ^ 6 * quantaInOne = quantaOf (1055 * 2 ^ 52 + 2 ^ 52) * 10 ^ 6 := by
      rw [hpower, Nat.mul_right_comm]
    rw [heq, hscale, nearestPattern_quantaOf (by norm_num) (by decide), hpower, millionths_mul]
    exact ⟨by decide, rfl⟩

end Number

/-! ### Numerals with a point -/

/-- A decimal with a point is digits on both sides of it, before which zeros make no difference. -/
theorem Decimal.exists_pointed_eq (n places : Nat) :
    ∃ whole fraction, pointed n places = whole ++ '.' :: fraction ∧ whole ≠ [] ∧
      (∀ c ∈ whole, c.isDigit) ∧ (∀ c ∈ fraction, c.isDigit) ∧ fraction.length = places ∧
      Nat.ofDigitChars 10 (whole ++ fraction) 0 = n := by
  let written := Nat.toDigits 10 n
  let padded := List.replicate (places + 1 - written.length) '0' ++ written
  have hlength : places + 1 ≤ padded.length := by
    simp only [padded, List.length_append, List.length_replicate]
    omega
  have hdigits : ∀ c ∈ padded, c.isDigit := by
    intro c hc
    rcases List.mem_append.mp hc with hc | hc
    · rw [List.eq_of_mem_replicate hc]
      rfl
    · exact Nat.isDigit_of_mem_toDigits (by decide) (by decide) hc
  refine ⟨padded.take (padded.length - places), padded.drop (padded.length - places), rfl, ?_,
    fun c hc => hdigits c (List.mem_of_mem_take hc), fun c hc => hdigits c (List.mem_of_mem_drop hc),
    ?_, ?_⟩
  · rw [Ne, List.take_eq_nil_iff, ← List.length_eq_zero_iff]
    omega
  · rw [List.length_drop]
    omega
  · rw [List.take_append_drop, Nat.ofDigitChars_append, Nat.ofDigitChars_replicate_zero,
      Nat.mul_zero, Nat.ofDigitChars_ten_toDigits]

theorem Decimal.isNumeric_of_mem_pointed {n places : Nat} :
    ∀ c ∈ pointed n places, isNumeric c := by
  obtain ⟨whole, fraction, heq, -, hwhole, hfraction, -⟩ := exists_pointed_eq n places
  intro c hc
  rw [heq] at hc
  rcases List.mem_append.mp hc with hc | hc
  · simp [isNumeric, hwhole c hc]
  rcases List.mem_cons.mp hc with rfl | hc
  · decide
  · simp [isNumeric, hfraction c hc]

theorem Text.trim_eq_self {cs : List Char} (h : ∀ c ∈ cs, isBlank c = false) : trim cs = cs := by
  have hkept (ds : List Char) (hds : ∀ c ∈ ds, isBlank c = false) : ds.dropWhile isBlank = ds := by
    cases ds with
    | nil => rfl
    | cons d ds => simp [hds d List.mem_cons_self]
  rw [trim, hkept cs h, hkept cs.reverse fun c hc => h c (List.mem_reverse.mp hc),
    List.reverse_reverse]

theorem not_isBlank_of_isNumeric {c : Char} (h : isNumeric c) : Text.isBlank c = false := by
  rcases of_decide_eq_true h with hdigit | rfl
  · have hrange := Char.isDigit_iff_toNat.mp hdigit
    have hlow : '0'.toNat = 48 := rfl
    have hhigh : '9'.toNat = 57 := rfl
    simp [Text.isBlank, Text.blankRanges]
    omega
  · rfl

namespace Numeral

/-- **A decimal with a point is read back.** -/
theorem decimal?_pointed (n places : Nat) :
    decimal? (Decimal.pointed n places) = some ⟨n, -places⟩ := by
  obtain ⟨whole, fraction, heq, hne, hwhole, hfraction, hlength, hdigits⟩ :=
    Decimal.exists_pointed_eq n places
  simp [decimal?, heq, splitDigits_point hwhole, splitFraction, splitDigits_digits hfraction,
    exponent?, hne, hlength, hdigits]

/-- A minus in front of a run of digits and points is its sign. -/
theorem read?_of_signed {run : List Char} (h : ∀ c ∈ run, isNumeric c) (negative : Bool) :
    read? ((if negative then ['-'] else []) ++ run) =
      ((decimal? run).map .decimal).map (toNumber negative) := by
  cases negative with
  | false => exact read?_of_numeric h
  | true =>
    rw [← unsigned?_of_numeric h]
    rfl

/-- A count of millionths is rounded like any fraction. -/
theorem nearestToDecimal_millionths (n : Nat) :
    nearestToDecimal ⟨n, -Number.fixedPlaces⟩ =
      Number.nearestPattern (n * Number.quantaInOne) (10 ^ 6) := by
  by_cases hzero : n = 0
  · have hnone : Number.nearestPattern (Number.quantaOf 0 * 10 ^ 6) (10 ^ 6) = 0 :=
      Number.nearestPattern_quantaOf (by norm_num) (by decide)
    have hquanta : Number.quantaOf 0 = 0 := rfl
    rw [hquanta, Nat.zero_mul] at hnone
    rw [hzero, Nat.zero_mul, hnone, nearestToDecimal, if_pos rfl]
  · have hlarge : ¬ 310 < -(Number.fixedPlaces : Int) := by decide
    have hsmall : ¬ -(Number.fixedPlaces : Int) + (Nat.toDigits 10 n).length < -330 := by
      simp only [Number.fixedPlaces]
      omega
    rw [nearestToDecimal, if_neg hzero, if_neg hlarge, if_neg hsmall]
    have hpower : Nat.pow 10 (-(Number.fixedPlaces : Int)).toNat = 1 := rfl
    have hplaces : Nat.pow 10 (- -(Number.fixedPlaces : Int)).toNat = 10 ^ 6 := rfl
    rw [hpower, hplaces, Nat.mul_one]

end Numeral

/-! ### Numbers with six places -/

namespace Number

variable {x : Number}

/-- The text of a finite number: its sign, and the millionths with a point. -/
theorem toList_fixed (h : x.pattern < infinityPattern) :
    x.fixed.toList = (if x.isNegative then ['-'] else []) ++
      Decimal.pointed (millionths x.quanta) fixedPlaces := by
  have hnumber : ¬ x.isNaN := fun hnan => by
    have hlt := isNaN_iff.mp hnan
    omega
  have hfinite : ¬ x.isInf := fun hinf => by
    have heq := isInf_iff.mp hinf
    omega
  have htext : Decimal.positional ⟨millionths x.quanta, -fixedPlaces⟩ =
      String.ofList (Decimal.pointed (millionths x.quanta) fixedPlaces) := by
    have hplaces : ¬ (0 : Int) ≤ -(fixedPlaces : Int) := by decide
    rw [Decimal.positional, if_neg hplaces, neg_neg, Int.toNat_natCast]
  rw [fixed, spell, if_neg hnumber, if_neg hfinite, ← quanta, htext, String.toList_append,
    String.toList_ofList]
  cases x.isNegative <;> rfl

/-- **The text of a finite number is read** as the number nearest to its millionths. -/
theorem readTrimmed?_fixed (h : x.pattern < infinityPattern) :
    Numeral.readTrimmed? x.fixed =
      some (ofPattern x.isNegative (nearestPattern (millionths x.quanta * quantaInOne) (10 ^ 6))) := by
  have hnumeric : ∀ c ∈ Decimal.pointed (millionths x.quanta) fixedPlaces, isNumeric c :=
    Decimal.isNumeric_of_mem_pointed
  have htrim : Text.trim x.fixed.toList = x.fixed.toList := by
    refine Text.trim_eq_self fun c hc => ?_
    rw [toList_fixed h] at hc
    rcases List.mem_append.mp hc with hc | hc
    · have hminus : c = '-' := by
        cases hnegative : x.isNegative <;> simp_all
      rw [hminus]
      rfl
    · exact not_isBlank_of_isNumeric (hnumeric c hc)
  rw [Numeral.readTrimmed?, htrim, toList_fixed h, Numeral.read?_of_signed hnumeric,
    Numeral.decimal?_pointed, ← Numeral.nearestToDecimal_millionths, Option.map_some,
    Option.map_some, Numeral.toNumber]

/-- The text of an infinity, and of what is no number, is read as what it is of. -/
theorem readTrimmed?_fixed_of_not_finite (h : x.isNaN ∨ x.isInf) :
    Numeral.readTrimmed? x.fixed = some x := by
  rcases h with hnan | hinf
  · rw [eq_notANumber_of_isNaN hnan]
    decide
  · rw [← ofPattern_pattern x, isInf_iff.mp hinf]
    cases x.isNegative <;> decide

/-- The text of a finite number is its sign and its millionths. -/
theorem fixed_congr {y : Number} (hx : x.pattern < infinityPattern)
    (hy : y.pattern < infinityPattern) (hsign : y.isNegative = x.isNegative)
    (hmillionths : millionths y.quanta = millionths x.quanta) : y.fixed = x.fixed := by
  rw [← String.toList_inj, toList_fixed hx, toList_fixed hy, hsign, hmillionths]

/-- What the text of a number is read as has the same text, and it is the number itself if that is
not finite, is a whole number, or has a magnitude of `2 ^ 33` or more. -/
theorem exists_readTrimmed?_fixed (x : Number) :
    ∃ y, Numeral.readTrimmed? x.fixed = some y ∧ y.fixed = x.fixed ∧
      (x.isNaN ∨ x.isInf ∨ (∃ n : Int, x.value = n) ∨ 2 ^ 33 ≤ |x.value| → y = x) := by
  by_cases hspecial : x.isNaN ∨ x.isInf
  · exact ⟨x, readTrimmed?_fixed_of_not_finite hspecial, rfl, fun _ => rfl⟩
  obtain ⟨hnumber, hbounded⟩ := not_or.mp hspecial
  have hfinite : x.pattern < infinityPattern := by
    rw [isNaN_iff] at hnumber
    rw [isInf_iff] at hbounded
    omega
  obtain ⟨hread, hstable⟩ := millionths_stable hfinite
  rw [← quanta] at hread hstable
  have hsame := pattern_ofPattern x.isNegative hread.le
  refine ⟨_, readTrimmed?_fixed hfinite, fixed_congr hfinite ?_ ?_ ?_, fun hexact => ?_⟩
  · rw [hsame]
    exact hread
  · exact isNegative_ofPattern _ hread.le
  · rw [quanta, hsame]
    exact hstable
  · have hpattern : nearestPattern (millionths x.quanta * quantaInOne) (10 ^ 6) = x.pattern := by
      refine nearestPattern_millionths hfinite ?_
      obtain hnan | hinf | ⟨n, hn⟩ | hlarge := hexact
      · exact absurd hnan hnumber
      · exact absurd hinf hbounded
      · exact .inl (quantaInOne_dvd hfinite hn)
      · exact .inr ((le_abs_value_iff hfinite (2 ^ 33)).mp (by exact_mod_cast hlarge))
    rw [hpattern, ofPattern_pattern]

end Number

/-! ### Numbers as strings -/

theorem Value.toNumber_string {s : String} {x : Number} (h : Numeral.readTrimmed? s = some x) :
    (Value.string s).toNumber = .ok x := by
  have hne : s ≠ "" := by
    intro hempty
    have hnone : Numeral.readTrimmed? "" = none := by decide
    rw [hempty, hnone] at h
    cases h
  simp [Value.toNumber, hne, h]

/-- **The text of a number is read back.**  It is read as a number with the same text, so that
reading it never fails, and doing it once more changes nothing.  It is read as the number itself if
that is infinite or is no number, if it is a whole number, zeros of both signs among them, or if its
magnitude is `2 ^ 33` or more. -/
theorem number_text_reads_back (x : Number) :
    ∃ y, Numeral.readTrimmed? x.fixed = some y ∧ y.fixed = x.fixed ∧
      (Value.string (Value.number x).toText).toNumber = .ok y ∧
      (Value.string (Value.number y).toText).toNumber = .ok y ∧
      (x.isNaN ∨ x.isInf ∨ (∃ n : Int, x.value = n) ∨ 2 ^ 33 ≤ |x.value| → y = x) := by
  obtain ⟨y, hread, hfixed, hexact⟩ := x.exists_readTrimmed?_fixed
  have hagain : Numeral.readTrimmed? y.fixed = some y := by rw [hfixed, hread]
  exact ⟨y, hread, hfixed, Value.toNumber_string hread, Value.toNumber_string hagain, hexact⟩

/-- The first fraction above `2 ^ 33` is read back although it is no whole millionth. -/
theorem fraction_above_limit_read_back :
    let x := Number.ofPattern false 0x4200000000000001
    2 ^ 33 ≤ |x.value| ∧ x.fixed = "8589934592.000002" ∧
      Numeral.readTrimmed? "8589934592.000002" = some x ∧
      (Value.string "8589934592.000002").toNumber = .ok x := by
  intro x
  have htext : x.fixed = "8589934592.000002" := by decide +kernel
  have hlarge : 2 ^ 33 ≤ |x.value| := by
    have hquanta : 2 ^ 33 * Number.quantaInOne ≤ x.quanta := by decide +kernel
    exact_mod_cast (Number.le_abs_value_iff (by decide +kernel) (2 ^ 33)).mpr hquanta
  obtain ⟨y, hread, -, htoNumber, -, hexact⟩ := number_text_reads_back x
  obtain rfl := hexact (.inr (.inr (.inr hlarge)))
  rw [Value.toText, htext] at htoNumber
  rw [htext] at hread
  exact ⟨hlarge, htext, hread, htoNumber⟩

end Reckon
