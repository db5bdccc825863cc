import Mathlib
import Reckon.Operation
/-!
# When an operator fails

A binary operator fails for few pairs of values, and with an error that says which operand is to
blame.  Arithmetic wants numbers, and looks for one on the left before it looks on the right, and at
the divisor last of all; an order wants two strings or none; membership wants two.  Nothing else
ever fails.

* `Number.isZero_iff_beq` — the two zeros are all that compares equal to zero;
* `Value.toNumber_eq_error_iff` — which values are no numbers;
* `BinaryOp.FailsWith` — the failures of an operator;
* `operator_fails_exactly` — an operator fails in these ways only, and otherwise has a value of the
  kind that is its own.
-/

namespace Reckon

/-! ### The zeros -/

namespace Number

/-- One of the two zeros. -/
def IsZero (x : Number) : Prop := x = 0 ∨ x = -0

/-- **The two zeros** are all that compares equal to zero. -/
theorem isZero_iff_beq {x : Number} : x.IsZero ↔ x == 0 := by
  constructor
  · rintro (rfl | rfl) <;> decide
  · intro h
    obtain ⟨-, -, rfl | ⟨-, hplus⟩ | ⟨rfl, -⟩⟩ := Float.beq_iff_ne_nan_and_eq.mp h
    · exact .inl rfl
    · exact absurd hplus (by decide)
    · exact .inr rfl

end Number

/-! ### Values that are no numbers, and values that are zero -/

namespace Value

/-- The value is no number, and the error says why.  Of the values only a string can be none. -/
inductive NoNumber : Value → EvalError → Prop
  | empty : NoNumber (string "") .emptyString
  | malformed {s : String} (hne : s ≠ "") (h : Numeral.readTrimmed? s = none) :
      NoNumber (string s) (.notNumeral s)

/-- The value reads as one of the two zeros. -/
def ReadsAsZero : Value → Prop
  | number x => x.IsZero
  | boolean b => b = false
  | string s => ∃ x, Numeral.readTrimmed? s = some x ∧ x.IsZero

theorem toNumber_eq_error_iff {v : Value} {e : EvalError} :
    v.toNumber = .error e ↔ v.NoNumber e := by
  constructor
  · intro h
    unfold toNumber at h
    split at h
    · cases h
    · cases h
    · split_ifs at h with hempty
      · cases h
        exact hempty ▸ .empty
      · split at h
        · cases h
        · cases h
          exact .malformed hempty ‹_›
  · rintro (_ | ⟨hne, hread⟩)
    · rfl
    · simp [toNumber, hne, hread]

theorem toNumber_string_eq_ok_iff {s : String} {x : Number} :
    (string s).toNumber = .ok x ↔ Numeral.readTrimmed? s = some x := by
  by_cases hempty : s = ""
  · simp [toNumber, hempty, show Numeral.readTrimmed? "" = none from rfl]
  · cases hread : Numeral.readTrimmed? s <;> simp [toNumber, hempty, hread]

theorem toNumber_of_not_isString {v : Value} (h : v.isString = false) :
    ∃ x, v.toNumber = .ok x := by
  cases v with
  | number x => exact ⟨x, rfl⟩
  | boolean b => exact ⟨_, rfl⟩
  | string s => cases h

theorem readsAsZero_iff {v : Value} : v.ReadsAsZero ↔ ∃ x, v.toNumber = .ok x ∧ x.IsZero := by
  cases v with
  | number x => simp [ReadsAsZero, toNumber]
  | boolean b =>
    cases b
    · exact iff_of_true rfl ⟨_, rfl, .inl rfl⟩
    · refine iff_of_false (by simp [ReadsAsZero]) ?_
      rintro ⟨x, hx, hzero⟩
      cases hx
      exact absurd (Number.isZero_iff_beq.mp hzero) (by decide)
  | string s => simp [ReadsAsZero, toNumber_string_eq_ok_iff]

end Value

/-! ### The failures -/

namespace BinaryOp

/-- The operators that compute with numbers only. -/
def numeric : List BinaryOp := [subtract, multiply, divide, modulo]

/-- The comparisons by order. -/
def ordering : List BinaryOp := [less, greater, lessEqual, greaterEqual]

theorem numeric_cases {op : BinaryOp} (hop : op ∈ numeric) :
    op = subtract ∨ op = multiply ∨ op = divide ∨ op = modulo := by
  simpa [numeric] using hop

theorem ordering_cases {op : BinaryOp} (hop : op ∈ ordering) :
    op = less ∨ op = greater ∨ op = lessEqual ∨ op = greaterEqual := by
  simpa [ordering] using hop

/-- The failures of an operator for two values. -/
inductive FailsWith (l r : Value) : BinaryOp → EvalError → Prop
  | left {op e} (hop : op ∈ numeric) (hl : l.toNumber = .error e) : FailsWith l r op e
  | right {op x e} (hop : op ∈ numeric) (hl : l.toNumber = .ok x) (hr : r.toNumber = .error e) :
      FailsWith l r op e
  | zeroDivisor {x} (hl : l.toNumber = .ok x) (hr : r.ReadsAsZero) :
      FailsWith l r divide .divisionByZero
  | zeroModulus {x} (hl : l.toNumber = .ok x) (hr : r.ReadsAsZero) :
      FailsWith l r modulo .moduloByZero
  | unordered {op} (hop : op ∈ ordering) (hkinds : l.isString ≠ r.isString) :
      FailsWith l r op (.incomparable op l.typeName r.typeName)
  | noMembership (hkinds : ¬ (l.isString ∧ r.isString)) :
      FailsWith l r member (.noMembership l.typeName r.typeName)

/-- The kind of value that an operator has where it does not fail.  Addition joins texts if an
operand is a string. -/
def Gives (op : BinaryOp) (l r v : Value) : Prop :=
  match op with
  | add => if l.isString ∨ r.isString then v = .string (l.toText ++ r.toText) else v.isNumber
  | subtract | multiply | divide | modulo => v.isNumber
  | _ => v.isBoolean

/-! ### One family after the other -/

variable {op : BinaryOp} {l r : Value} {x y : Number} {e : EvalError}

theorem compute_of_isZero (hzero : y.IsZero) :
    divide.compute x y = .error .divisionByZero ∧ modulo.compute x y = .error .moduloByZero := by
  rw [Number.isZero_iff_beq] at hzero
  simp [compute, hzero]

/-- Only division and remainder look at the divisor, and only at whether it is zero. -/
theorem compute_of_divisor (hop : op ∈ numeric) (h : ¬ (y.IsZero ∧ (op = divide ∨ op = modulo))) :
    ∃ z, op.compute x y = .ok z := by
  rw [Number.isZero_iff_beq] at h
  rcases numeric_cases hop with rfl | rfl | rfl | rfl <;> simp_all [compute]

/-- Without a string to add, arithmetic reads the left operand and then the right one. -/
theorem arithmetic_of_no_text (h : ¬ (op = add ∧ (l.isString ∨ r.isString))) :
    op.arithmetic l r = (do
      let x ← l.toNumber
      let y ← r.toNumber
      return .number (← op.compute x y)) := by
  simp only [arithmetic, if_neg h]

theorem apply_of_numeric (hop : op ∈ numeric) : op.apply l r = (do
    let x ← l.toNumber
    let y ← r.toNumber
    return .number (← op.compute x y)) := by
  rcases numeric_cases hop with rfl | rfl | rfl | rfl <;> exact arithmetic_of_no_text (by simp)

theorem apply_of_numbers (hop : op ∈ numeric) (hl : l.toNumber = .ok x) (hr : r.toNumber = .ok y) :
    op.apply l r = (do return .number (← op.compute x y)) := by
  rw [apply_of_numeric hop, hl, hr]
  rfl

theorem apply_of_ordering (hop : op ∈ ordering) : op.apply l r = op.comparison l r := by
  rcases ordering_cases hop with rfl | rfl | rfl | rfl <;> rfl

theorem order_of_kinds_ne (hkinds : l.isString ≠ r.isString) :
    op.order l r = .error (.incomparable op l.typeName r.typeName) := by
  cases l <;> cases r <;> first | rfl | exact absurd rfl hkinds

theorem order_of_kinds_eq (op : BinaryOp) (hkinds : l.isString = r.isString) :
    ∃ o, op.order l r = .ok o := by
  cases l <;> cases r <;> first | exact ⟨_, rfl⟩ | cases hkinds

theorem failsWith_or_gives_of_numeric (hop : op ∈ numeric) :
    (∃ e, FailsWith l r op e) ∨ ∃ z, op.apply l r = .ok (.number z) := by
  cases hl : l.toNumber with
  | error e => exact .inl ⟨e, .left hop hl⟩
  | ok x =>
    cases hr : r.toNumber with
    | error e => exact .inl ⟨e, .right hop hl hr⟩
    | ok y =>
      by_cases hfails : y.IsZero ∧ (op = divide ∨ op = modulo)
      · have hzero : r.ReadsAsZero := Value.readsAsZero_iff.mpr ⟨y, hr, hfails.1⟩
        rcases hfails.2 with rfl | rfl
        · exact .inl ⟨_, .zeroDivisor hl hzero⟩
        · exact .inl ⟨_, .zeroModulus hl hzero⟩
      · obtain ⟨z, hz⟩ := compute_of_divisor (x := x) hop hfails
        exact .inr ⟨z, by rw [apply_of_numbers hop hl hr, hz]; rfl⟩

theorem failsWith_or_gives_of_ordering (hop : op ∈ ordering) :
    (∃ e, FailsWith l r op e) ∨ ∃ b, op.apply l r = .ok (.boolean b) := by
  rw [apply_of_ordering hop]
  by_cases hkinds : l.isString = r.isString
  · obtain ⟨o, ho⟩ := order_of_kinds_eq op hkinds
    exact .inr ⟨_, by rw [comparison, ho]; rfl⟩
  · exact .inl ⟨_, .unordered hop hkinds⟩

theorem failsWith_or_gives_of_member :
    (∃ e, FailsWith l r member e) ∨ ∃ b, member.apply l r = .ok (.boolean b) := by
  by_cases hkinds : l.isString ∧ r.isString
  · obtain ⟨hl, hr⟩ := hkinds
    cases l <;> cases hl
    cases r <;> cases hr
    exact .inr ⟨_, rfl⟩
  · exact .inl ⟨_, .noMembership hkinds⟩

theorem add_gives : ∃ v, add.apply l r = .ok v ∧ add.Gives l r v := by
  by_cases htext : l.isString ∨ r.isString
  · exact ⟨_, by simp [apply, arithmetic, htext]; rfl, by simp [Gives, htext]⟩
  · obtain ⟨hl, hr⟩ := not_or.mp htext
    obtain ⟨x, hx⟩ := Value.toNumber_of_not_isString (by simpa using hl)
    obtain ⟨y, hy⟩ := Value.toNumber_of_not_isString (by simpa using hr)
    refine ⟨.number (x + y), ?_, by simp [Gives, htext, Value.isNumber]⟩
    rw [apply, arithmetic_of_no_text fun h => htext h.2, hx, hy]
    rfl

/-- An operator fails for two values, or has a value of its kind. -/
theorem failsWith_or_gives (op : BinaryOp) (l r : Value) :
    (∃ e, FailsWith l r op e) ∨ ∃ v, op.apply l r = .ok v ∧ op.Gives l r v := by
  cases op with
  | add => exact .inr add_gives
  | subtract | multiply | divide | modulo =>
    exact (failsWith_or_gives_of_numeric (by decide)).imp_right fun ⟨z, hz⟩ => ⟨_, hz, rfl⟩
  | less | greater | lessEqual | greaterEqual =>
    exact (failsWith_or_gives_of_ordering (by decide)).imp_right fun ⟨b, hb⟩ => ⟨_, hb, rfl⟩
  | member => exact failsWith_or_gives_of_member.imp_right fun ⟨b, hb⟩ => ⟨_, hb, rfl⟩
  | equal | notEqual | xor | and | or => exact .inr ⟨_, rfl, rfl⟩

theorem FailsWith.apply_eq (h : FailsWith l r op e) : op.apply l r = .error e := by
  cases h with
  | left hop hl =>
    rw [apply_of_numeric hop, hl]
    rfl
  | right hop hl hr =>
    rw [apply_of_numeric hop, hl, hr]
    rfl
  | zeroDivisor hl hr =>
    obtain ⟨y, hy, hzero⟩ := Value.readsAsZero_iff.mp hr
    rw [apply_of_numbers (by decide) hl hy, (compute_of_isZero hzero).1]
    rfl
  | zeroModulus hl hr =>
    obtain ⟨y, hy, hzero⟩ := Value.readsAsZero_iff.mp hr
    rw [apply_of_numbers (by decide) hl hy, (compute_of_isZero hzero).2]
    rfl
  | unordered hop hkinds =>
    rw [apply_of_ordering hop, comparison, order_of_kinds_ne hkinds]
    rfl
  | noMembership hkinds =>
    cases l <;> cases r <;> first | rfl | exact absurd ⟨rfl, rfl⟩ hkinds

theorem apply_eq_error_iff : op.apply l r = .error e ↔ FailsWith l r op e := by
  refine ⟨fun h => ?_, FailsWith.apply_eq⟩
  obtain ⟨e', he⟩ | ⟨v, hv, -⟩ := failsWith_or_gives op l r
  · cases h.symm.trans he.apply_eq
    exact he
  · cases h.symm.trans hv

end BinaryOp

/-- **When an operator fails, and with what.**  An operator fails in the ways of
`BinaryOp.FailsWith` and with the errors that are named there, and in no other way; otherwise it has
a value, of its own kind.  The values that are no numbers are the strings that are no numerals, and
those that no number can be divided by are the two zeros, `false` and the strings that read as
zero. -/
theorem operator_fails_exactly (op : BinaryOp) (l r : Value) :
    (∀ e, op.apply l r = .error e ↔ BinaryOp.FailsWith l r op e) ∧
    ((∀ e, ¬ BinaryOp.FailsWith l r op e) → ∃ v, op.apply l r = .ok v ∧ op.Gives l r v) ∧
    (∀ (v : Value) e, v.toNumber = .error e ↔ v.NoNumber e) ∧
    ∀ v : Value, v.ReadsAsZero ↔ ∃ x, v.toNumber = .ok x ∧ x == 0 := by
  refine ⟨fun e => BinaryOp.apply_eq_error_iff, fun hnone => ?_,
    fun v e => Value.toNumber_eq_error_iff, fun v => ?_⟩
  · exact (BinaryOp.failsWith_or_gives op l r).resolve_left fun ⟨e, he⟩ => hnone e he
  · simp only [Value.readsAsZero_iff, Number.isZero_iff_beq]

/-- A numeral is divided by what is no number, which is not zero, and leaves a remainder. -/
theorem remainder_by_no_number :
    let seven := Value.string " 7 "
    let nan := Value.number .notANumber
    (∀ e, ¬ BinaryOp.FailsWith seven nan .modulo e) ∧
      ∃ v, BinaryOp.modulo.apply seven nan = .ok v ∧ BinaryOp.modulo.Gives seven nan v := by
  intro seven nan
  have hread : (Numeral.readTrimmed? " 7 ").isSome := by decide +kernel
  obtain ⟨x, hx⟩ := Option.isSome_iff_exists.mp hread
  have hseven : seven.toNumber = .ok x := Value.toNumber_string_eq_ok_iff.mpr hx
  have hnone : ∀ e, ¬ BinaryOp.FailsWith seven nan .modulo e := by
    intro e h
    cases h with
    | left _ hl => cases hseven.symm.trans hl
    | right _ _ hr => cases hr
    | zeroModulus _ hr => exact absurd (Number.isZero_iff_beq.mp hr) (by decide)
    | unordered hop => exact absurd hop (by decide)
  exact ⟨hnone, (operator_fails_exactly .modulo seven nan).2.1 hnone⟩

/-- The left operand is to blame before the divisor is. -/
example : BinaryOp.divide.apply (.string "six") (.boolean false) = .error (.notNumeral "six") := by
  rfl

example : BinaryOp.modulo.apply (.number 6) (.string " -0.0e5 ") = .error .moduloByZero := by rfl

end Reckon
