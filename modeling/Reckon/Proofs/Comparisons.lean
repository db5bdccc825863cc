import Reckon.Proofs.ByteOrder
import Reckon.Proofs.OperatorFailures
/-!
# What a comparison says

The comparisons by order look at one thing only, how the left value stands to the right one, and
each of them accepts some of the ways in which it may.  So two values have a standing, whichever
comparison asks for it, and what all four say can be read off it.

* `BinaryOp.Holds`, `BinaryOp.Denies` — an operator says yes, or no, to two values;
* `Value.Stands` — how one value stands to another;
* `Value.Stands.less_holds_iff` and those after it — what each comparison makes of a standing;
* `Value.Ascend`, `Value.Level`, `Value.Descend` — what all of them say together;
* `equal_holds_iff` — equality, which does not ask for a standing.
-/

namespace Reckon

/-! ### Verdicts -/

namespace BinaryOp

/-- The operator says yes to the two values. -/
def Holds (op : BinaryOp) (l r : Value) : Prop := op.apply l r = .ok (.boolean true)

/-- The operator says no to the two values. -/
def Denies (op : BinaryOp) (l r : Value) : Prop := op.apply l r = .ok (.boolean false)

variable {op : BinaryOp} {l r : Value} {b : Bool}

theorem holds_iff_of_apply (h : op.apply l r = .ok (.boolean b)) : op.Holds l r ↔ b = true := by
  simp [Holds, h]

theorem holds_or_denies_of_apply (h : op.apply l r = .ok (.boolean b)) :
    op.Holds l r ∨ op.Denies l r := by
  cases b with
  | true => exact .inl h
  | false => exact .inr h

end BinaryOp

/-! ### Standings -/

namespace Value

/-- How the left value stands to the right one, whichever comparison asks.  There is no ordering
where one of them is no number. -/
def Stands (l r : Value) (o : Option Ordering) : Prop := ∀ op : BinaryOp, op.order l r = .ok o

/-- The value is no string, and it is this number when it is compared. -/
def CountsAs (v : Value) (x : Number) : Prop := v.isString = false ∧ v.toNumber = .ok x

variable {l r v : Value} {o : Option Ordering} {x y : Number}

theorem exists_countsAs (h : v.isString = false) : ∃ x, v.CountsAs x := by
  obtain ⟨x, hx⟩ := toNumber_of_not_isString h
  exact ⟨x, h, hx⟩

theorem CountsAs.unique (hx : v.CountsAs x) (hy : v.CountsAs y) : x = y := by
  cases hx.2.symm.trans hy.2
  rfl

theorem stands_strings (s t : String) : (string s).Stands (string t) (some (compare s t)) := by
  rw [← Text.compare_bytes]
  exact fun _ => rfl

/-- A value stands to another one in one way only. -/
theorem Stands.unique {o' : Option Ordering} (h : l.Stands r o) (h' : l.Stands r o') : o = o' := by
  cases (h .less).symm.trans (h' .less)
  rfl

theorem CountsAs.stands (hl : l.CountsAs x) (hr : r.CountsAs y) : l.Stands r (x.order? y) := by
  intro op
  obtain ⟨hl, hx⟩ := hl
  obtain ⟨hr, hy⟩ := hr
  cases l <;> cases hl <;> cases r <;> cases hr <;> simp [BinaryOp.order, hx, hy] <;> rfl

/-- Two values of which both or none are strings are two strings or two numbers. -/
theorem strings_or_numbers (hkinds : l.isString = r.isString) :
    (∃ s t, l = string s ∧ r = string t) ∨ ∃ x y, l.CountsAs x ∧ r.CountsAs y := by
  cases hr : r.isString with
  | true =>
    rw [hr] at hkinds
    cases l <;> cases hkinds
    cases r <;> cases hr
    exact .inl ⟨_, _, rfl, rfl⟩
  | false =>
    obtain ⟨x, hx⟩ := exists_countsAs (hkinds.trans hr)
    obtain ⟨y, hy⟩ := exists_countsAs hr
    exact .inr ⟨x, y, hx, hy⟩

/-- Two strings, or two values that are none, have a standing. -/
theorem exists_stands (hkinds : l.isString = r.isString) : ∃ o, l.Stands r o := by
  obtain ⟨s, t, rfl, rfl⟩ | ⟨x, y, hl, hr⟩ := strings_or_numbers hkinds
  · exact ⟨_, stands_strings s t⟩
  · exact ⟨_, hl.stands hr⟩

namespace Stands

open BinaryOp

theorem apply_eq {op : BinaryOp} (h : l.Stands r o) (hop : op ∈ ordering) :
    op.apply l r = .ok (.boolean (o.any op.accepts)) := by
  rw [apply_of_ordering hop, comparison, h op]
  rfl

theorem holds_iff {op : BinaryOp} (h : l.Stands r o) (hop : op ∈ ordering) :
    op.Holds l r ↔ o.any op.accepts = true :=
  holds_iff_of_apply (h.apply_eq hop)

theorem less_holds_iff (h : l.Stands r o) : less.Holds l r ↔ o = some .lt := by
  rw [h.holds_iff (by decide)]
  rcases o with _ | _ | _ | _ <;> decide

theorem greater_holds_iff (h : l.Stands r o) : greater.Holds l r ↔ o = some .gt := by
  rw [h.holds_iff (by decide)]
  rcases o with _ | _ | _ | _ <;> decide

theorem lessEqual_holds_iff (h : l.Stands r o) :
    lessEqual.Holds l r ↔ o = some .lt ∨ o = some .eq := by
  rw [h.holds_iff (by decide)]
  rcases o with _ | _ | _ | _ <;> decide

theorem greaterEqual_holds_iff (h : l.Stands r o) :
    greaterEqual.Holds l r ↔ o = some .gt ∨ o = some .eq := by
  rw [h.holds_iff (by decide)]
  rcases o with _ | _ | _ | _ <;> decide

end Stands

/-- The comparisons put the left value before the right one. -/
structure Ascend (l r : Value) : Prop where
  less : BinaryOp.less.Holds l r
  lessEqual : BinaryOp.lessEqual.Holds l r
  not_greater : BinaryOp.greater.Denies l r
  not_greaterEqual : BinaryOp.greaterEqual.Denies l r

/-- The comparisons put neither value before the other one. -/
structure Level (l r : Value) : Prop where
  lessEqual : BinaryOp.lessEqual.Holds l r
  greaterEqual : BinaryOp.greaterEqual.Holds l r
  not_less : BinaryOp.less.Denies l r
  not_greater : BinaryOp.greater.Denies l r

/-- The comparisons put the right value before the left one. -/
structure Descend (l r : Value) : Prop where
  greater : BinaryOp.greater.Holds l r
  greaterEqual : BinaryOp.greaterEqual.Holds l r
  not_less : BinaryOp.less.Denies l r
  not_lessEqual : BinaryOp.lessEqual.Denies l r

namespace Stands

theorem ascend (h : l.Stands r (some .lt)) : l.Ascend r where
  less := h.apply_eq (by decide)
  lessEqual := h.apply_eq (by decide)
  not_greater := h.apply_eq (by decide)
  not_greaterEqual := h.apply_eq (by decide)

theorem level (h : l.Stands r (some .eq)) : l.Level r where
  lessEqual := h.apply_eq (by decide)
  greaterEqual := h.apply_eq (by decide)
  not_less := h.apply_eq (by decide)
  not_greater := h.apply_eq (by decide)

theorem descend (h : l.Stands r (some .gt)) : l.Descend r where
  greater := h.apply_eq (by decide)
  greaterEqual := h.apply_eq (by decide)
  not_less := h.apply_eq (by decide)
  not_lessEqual := h.apply_eq (by decide)

end Stands

end Value

/-! ### Equality -/

namespace BinaryOp

variable {l r : Value}

theorem equal_holds_iff : equal.Holds l r ↔ l.equals r = true :=
  holds_iff_of_apply (by simp [apply, equality])

theorem equal_holds_strings_iff {s t : String} :
    equal.Holds (.string s) (.string t) ↔ s = t := by
  simp [equal_holds_iff, Value.equals]

end BinaryOp

end Reckon
