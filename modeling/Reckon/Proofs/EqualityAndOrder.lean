import Reckon.Proofs.Comparisons
/-!
# Equality beside the comparisons

Equality of numbers has a tolerance, and the comparisons by order have none.  So two numbers that
are close to each other are equal and yet one of them is less than the other.  That is the only way
in which the two part: whatever is the same for the comparisons is equal, and what is equal without
being the same is a pair of different finite numbers, of which the comparisons say which one is
less.

* `Number.order?_eq_compare` — how two numbers stand to each other, as one comparison;
* `Value.Coincides` — two values that no comparison tells apart;
* `Value.Differs` — two values that are different numbers;
* `equality_and_order` — what each comparison says of values that are equal;
* `equal_numbers_in_order` — two numbers that are equal, and one of them is less.
-/

open Float.Model (UnpackedFloat)

namespace Reckon

/-! ### The order of numbers -/

namespace Number

variable {x y : Number}

/-- What `a` is to `b`, `b` is to `a` the other way round. -/
theorem compare_swap (a b : UnpackedFloat) : b.compare a = (a.compare b).map Ordering.swap := by
  cases a with
  | notANumber => cases b <;> rfl
  | infinity s =>
    cases b with
    | notANumber => cases s <;> rfl
    | infinity t => cases s <;> cases t <;> rfl
    | zero t | finite t => cases s <;> rfl
  | zero s =>
    cases b with
    | notANumber | zero t => rfl
    | infinity t | finite t => cases t <;> rfl
  | finite s m e =>
    cases b with
    | notANumber => cases s <;> rfl
    | infinity t | zero t => cases s <;> cases t <;> rfl
    | finite t n f =>
      -- Only two numbers of one sign are compared by their exponents and significands.
      cases s <;> cases t <;>
        simp [UnpackedFloat.compare, Ordering.swap_then, Std.OrientedOrd.eq_swap (a := f),
          Std.OrientedOrd.eq_swap (a := n)]

/-- Two finite numbers stand to each other in some way. -/
theorem compare_of_finite {a b : UnpackedFloat} (ha : a.isFinite) (hb : b.isFinite) :
    ∃ o, a.compare b = some o := by
  cases a with
  | notANumber | infinity s => cases ha
  | zero s =>
    cases b with
    | notANumber | infinity t => cases hb
    | zero t => exact ⟨_, rfl⟩
    | finite t => cases t <;> exact ⟨_, rfl⟩
  | finite s =>
    cases b with
    | notANumber | infinity t => cases hb
    | zero t => cases s <;> exact ⟨_, rfl⟩
    | finite t => cases s <;> cases t <;> exact ⟨_, rfl⟩

theorem lt_iff_compare : x < y ↔ x.toModel.compare y.toModel = some .lt := by
  change x.lt y = true ↔ _
  simp only [Float.lt, decide_eq_true_eq]
  exact beq_iff_eq

theorem beq_iff_compare : x == y ↔ x.toModel.compare y.toModel = some .eq := by
  change (x.toModel.compare y.toModel == some .eq) = true ↔ _
  exact beq_iff_eq

theorem gt_iff_compare : y < x ↔ x.toModel.compare y.toModel = some .gt := by
  rw [lt_iff_compare, Float.Model.compare, compare_swap]
  change _ ↔ x.toModel.unpack.compare y.toModel.unpack = _
  rcases x.toModel.unpack.compare y.toModel.unpack with _ | _ | _ | _ <;> decide

theorem order?_eq_compare (x y : Number) : x.order? y = x.toModel.compare y.toModel := by
  simp only [order?, lt_iff_compare, beq_iff_compare, gt_iff_compare (y := y)]
  rcases x.toModel.compare y.toModel with _ | _ | _ | _ <;> rfl

theorem order?_eq_lt_iff : x.order? y = some .lt ↔ x < y := by
  rw [order?_eq_compare, lt_iff_compare]

theorem order?_eq_eq_iff : x.order? y = some .eq ↔ x == y := by
  rw [order?_eq_compare, beq_iff_compare]

theorem order?_eq_gt_iff : x.order? y = some .gt ↔ y < x := by
  rw [order?_eq_compare, gt_iff_compare]

theorem beq_symm (h : x == y) : y == x := by
  rw [beq_iff_compare] at h ⊢
  rw [Float.Model.compare, compare_swap]
  exact congrArg (Option.map Ordering.swap) h

/-- Two finite numbers are the same, or one of them is less. -/
theorem lt_or_gt_of_finite (hx : x.isFinite) (hy : y.isFinite) (hne : ¬ x == y) :
    x < y ∨ y < x := by
  rw [lt_iff_compare, gt_iff_compare]
  rw [beq_iff_compare] at hne
  obtain ⟨o, ho⟩ := compare_of_finite hx hy
  change x.toModel.compare y.toModel = some o at ho
  rw [ho] at hne ⊢
  cases o with
  | lt => exact .inl rfl
  | eq => exact absurd rfl hne
  | gt => exact .inr rfl

theorem approxEq_of_beq (h : x == y) : x.approxEq y := by simp [approxEq, h]

/-- Numbers that count as equal are the same number, or both are finite. -/
theorem beq_or_finite_of_approxEq (h : x.approxEq y) : x == y ∨ x.isFinite ∧ y.isFinite := by
  unfold approxEq at h
  split_ifs at h with hsame hinfinite
  · exact .inl hsame
  · exact .inr (by simpa using hinfinite)

end Number

/-! ### Values that are the same, and values that are not -/

namespace Value

/-- The values are one string, or the same number.  The two zeros are the same number here, and what
is no number is not the same as itself. -/
inductive Coincides : Value → Value → Prop
  | strings (s : String) : Coincides (string s) (string s)
  | numbers {l r : Value} {x y : Number} (hl : l.CountsAs x) (hr : r.CountsAs y) (h : x == y) :
      Coincides l r

/-- The values are different finite numbers, and not two truth values. -/
structure Differs (l r : Value) : Prop where
  isNumber : l.isNumber ∨ r.isNumber
  numbers : ∃ x y, l.CountsAs x ∧ r.CountsAs y ∧ x.isFinite ∧ y.isFinite ∧ (x < y ∨ y < x)

variable {l r : Value} {x y : Number}

theorem coincides_strings_iff {s t : String} : (string s).Coincides (string t) ↔ s = t := by
  constructor
  · rintro (_ | ⟨hl, -, -⟩)
    · rfl
    · cases hl.1
  · rintro rfl
    exact .strings s

theorem CountsAs.coincides_iff (hl : l.CountsAs x) (hr : r.CountsAs y) :
    l.Coincides r ↔ x == y := by
  constructor
  · rintro (_ | ⟨hl', hr', h⟩)
    · cases hl.1
    · rwa [hl.unique hl', hr.unique hr']
  · exact .numbers hl hr

/-- Of two values that are no strings equality asks whether their numbers count as equal, and it is
the number that is asked about if the other value is a truth value. -/
theorem CountsAs.equals_cases (hl : l.CountsAs x) (hr : r.CountsAs y) :
    l.isNumber ∧ l.equals r = x.approxEq y ∨ r.isNumber ∧ l.equals r = y.approxEq x ∨
      ∃ a b, l = boolean a ∧ r = boolean b := by
  obtain ⟨hl, hx⟩ := hl
  obtain ⟨hr, hy⟩ := hr
  cases l with
  | string s => cases hl
  | number x =>
    cases hx
    cases r with
    | string t => cases hr
    | number y => cases hy; exact .inl ⟨rfl, rfl⟩
    | boolean b => cases hy; exact .inl ⟨rfl, rfl⟩
  | boolean a =>
    cases hx
    cases r with
    | string t => cases hr
    | number y => cases hy; exact .inr (.inl ⟨rfl, rfl⟩)
    | boolean b => exact .inr (.inr ⟨a, b, rfl, rfl⟩)

theorem coincides_booleans_iff {a b : Bool} : (boolean a).Coincides (boolean b) ↔ a = b := by
  rw [CountsAs.coincides_iff ⟨rfl, rfl⟩ ⟨rfl, rfl⟩]
  cases a <;> cases b <;> decide

/-- What is the same is equal. -/
theorem Coincides.equals (h : l.Coincides r) : l.equals r := by
  cases h with
  | strings s => simp [Value.equals]
  | numbers hl hr h =>
    obtain ⟨-, heq⟩ | ⟨-, heq⟩ | ⟨a, b, rfl, rfl⟩ := hl.equals_cases hr
    · rw [heq]
      exact Number.approxEq_of_beq h
    · rw [heq]
      exact Number.approxEq_of_beq (Number.beq_symm h)
    · have hsame := coincides_booleans_iff.mp (.numbers hl hr h)
      simp [Value.equals, hsame]

/-- What is equal is the same, or a pair of different numbers. -/
theorem coincides_or_differs_of_equals (hkinds : l.isString = r.isString) (h : l.equals r) :
    l.Coincides r ∨ l.Differs r := by
  obtain ⟨s, t, rfl, rfl⟩ | ⟨x, y, hl, hr⟩ := strings_or_numbers hkinds
  · have hsame : s = t := by simpa [Value.equals] using h
    exact .inl (coincides_strings_iff.mpr hsame)
  rw [hl.coincides_iff hr]
  by_cases hsame : x == y
  · exact .inl hsame
  have hdiffers (hnumber : l.isNumber ∨ r.isNumber) (hfinite : x.isFinite ∧ y.isFinite) :
      l.Differs r :=
    ⟨hnumber, x, y, hl, hr, hfinite.1, hfinite.2,
      Number.lt_or_gt_of_finite hfinite.1 hfinite.2 hsame⟩
  refine .inr ?_
  obtain ⟨hnumber, heq⟩ | ⟨hnumber, heq⟩ | ⟨a, b, rfl, rfl⟩ := hl.equals_cases hr
  · rw [heq] at h
    exact hdiffers (.inl hnumber) ((Number.beq_or_finite_of_approxEq h).resolve_left hsame)
  · rw [heq] at h
    have hsame' : ¬ y == x := fun hyx => hsame (Number.beq_symm hyx)
    exact hdiffers (.inr hnumber) ((Number.beq_or_finite_of_approxEq h).resolve_left hsame').symm
  · have hsame' : a = b := by simpa [Value.equals] using h
    exact absurd ((hl.coincides_iff hr).mp (coincides_booleans_iff.mpr hsame')) hsame

/-- Values that are the same stand as equals to each other, and others do not. -/
theorem Stands.eq_iff_coincides {o : Option Ordering} (h : l.Stands r o)
    (hkinds : l.isString = r.isString) : o = some .eq ↔ l.Coincides r := by
  obtain ⟨s, t, rfl, rfl⟩ | ⟨x, y, hl, hr⟩ := strings_or_numbers hkinds
  · rw [h.unique (stands_strings s t), Option.some_inj, compare_eq_iff_eq, coincides_strings_iff]
  · rw [h.unique (hl.stands hr), Number.order?_eq_eq_iff, hl.coincides_iff hr]

/-- Of two different numbers the comparisons put one before the other. -/
theorem Differs.ascend_or_descend (h : l.Differs r) : l.Ascend r ∨ l.Descend r := by
  obtain ⟨x, y, hl, hr, -, -, hlt | hgt⟩ := h.numbers
  · have hstands := hl.stands hr
    rw [Number.order?_eq_lt_iff.mpr hlt] at hstands
    exact .inl hstands.ascend
  · have hstands := hl.stands hr
    rw [Number.order?_eq_gt_iff.mpr hgt] at hstands
    exact .inr hstands.descend

end Value

open BinaryOp

/-- **Equality and the comparisons.**  For two strings, or two values that are none, what is the
same is equal, and the comparisons put neither before the other.  What is equal and not the same are
two different finite numbers, and of these the comparisons put one before the other.  The comparison
`<=` holds of what is less or the same, and `>=` of what is greater or the same, so that values of
which both hold are equal. -/
theorem equality_and_order (l r : Value) (hkinds : l.isString = r.isString) :
    (l.Coincides r → equal.Holds l r ∧ l.Level r) ∧
    (equal.Holds l r → ¬ l.Coincides r → l.Differs r ∧ (l.Ascend r ∨ l.Descend r)) ∧
    (lessEqual.Holds l r ↔ less.Holds l r ∨ l.Coincides r) ∧
    (greaterEqual.Holds l r ↔ greater.Holds l r ∨ l.Coincides r) ∧
    (lessEqual.Holds l r → greaterEqual.Holds l r → equal.Holds l r) := by
  obtain ⟨o, h⟩ := Value.exists_stands hkinds
  have hsame := h.eq_iff_coincides hkinds
  have hequal : l.Coincides r → equal.Holds l r := fun hc => equal_holds_iff.mpr hc.equals
  refine ⟨fun hc => ⟨hequal hc, ?_⟩, fun heq hne => ?_, ?_, ?_, fun hle hge => hequal ?_⟩
  · rw [hsame.mpr hc] at h
    exact h.level
  · have hdiffers : l.Differs r :=
      (Value.coincides_or_differs_of_equals hkinds (equal_holds_iff.mp heq)).resolve_left hne
    exact ⟨hdiffers, hdiffers.ascend_or_descend⟩
  · rw [h.lessEqual_holds_iff, h.less_holds_iff, hsame]
  · rw [h.greaterEqual_holds_iff, h.greater_holds_iff, hsame]
  · -- What is neither less nor greater stands as an equal.
    rw [h.lessEqual_holds_iff] at hle
    rw [h.greaterEqual_holds_iff] at hge
    rw [← hsame]
    rcases hle with rfl | heq
    · simp at hge
    · exact heq

/-- A truth value is equal to the number next to `1` and the lesser of the two. -/
theorem truth_before_next_number :
    let l := Value.boolean true
    let r := Value.number (1 + Number.epsilon)
    l.isString = r.isString ∧ equal.Holds l r ∧ ¬ l.Coincides r ∧
      l.Differs r ∧ (l.Ascend r ∨ l.Descend r) := by
  intro l r
  have hequal : equal.Holds l r := by rfl
  have hdifferent : ¬ l.Coincides r := by
    rw [Value.CountsAs.coincides_iff ⟨rfl, rfl⟩ ⟨rfl, rfl⟩]
    decide
  exact ⟨rfl, hequal, hdifferent, (equality_and_order l r rfl).2.1 hequal hdifferent⟩

/-- The sum of a tenth and two tenths is equal to three tenths, and yet it is greater and not less
or equal. -/
theorem equal_numbers_in_order :
    let l := Value.number (0.1 + 0.2)
    let r := Value.number 0.3
    l.isString = r.isString ∧ equal.Holds l r ∧ greater.Holds l r ∧ ¬ lessEqual.Holds l r := by
  intro l r
  have hgreater : greater.Holds l r := by rfl
  have hnot : lessEqual.Denies l r := by rfl
  refine ⟨rfl, by rfl, hgreater, ?_⟩
  rw [Denies] at hnot
  simp [Holds, hnot]

end Reckon
