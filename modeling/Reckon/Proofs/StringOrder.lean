import Reckon.Proofs.Comparisons
/-!
# The order of strings in the language

For strings the comparisons and equality are the relations of one total order, in which strings
stand as their characters do: by the first place at which they differ, or by length if there is
none.  A text that is put before two strings does not change how they stand to each other.

* `Text.scalars` — a string as its sequence of Unicode scalar values;
* `Text.scalars_lt_iff`, `Text.append_lt_append_iff` — the order of strings by characters, and
  behind a common beginning;
* `BinaryOp.less_strings_iff` and those after it — each comparison of two strings;
* `strings_totally_ordered` — the laws of the order, for the operators.
-/

namespace Reckon

/-! ### Strings by their characters -/

namespace Text

/-- The Unicode scalar values of a string. -/
def scalars (s : String) : List Nat := s.toList.map Char.toNat

theorem map_toNat_lt_iff {cs ds : List Char} :
    cs.map Char.toNat < ds.map Char.toNat ↔ cs < ds := by
  induction cs generalizing ds with
  | nil => cases ds <;> simp
  | cons c cs ih =>
    cases ds with
    | nil => simp
    | cons d ds =>
      rw [List.map_cons, List.map_cons, List.cons_lt_cons_iff, List.cons_lt_cons_iff, ih,
        Char.toNat_inj]
      rfl

theorem scalars_lt_iff {s t : String} : scalars s < scalars t ↔ s < t :=
  map_toNat_lt_iff

/-- A common beginning is no difference. -/
theorem append_lt_append_iff {s t u : String} : u ++ s < u ++ t ↔ s < t := by
  have hmono : StrictMono fun s : String => u ++ s := by
    intro s t h
    rw [String.lt_iff_toList_lt] at h ⊢
    rw [String.toList_append, String.toList_append]
    exact List.append_left_lt h
  exact hmono.lt_iff_lt

end Text

/-! ### The comparisons of two strings -/

namespace BinaryOp

open Value (stands_strings)

variable {s t : String}

theorem less_strings_iff : less.Holds (.string s) (.string t) ↔ s < t := by
  rw [(stands_strings s t).less_holds_iff, Option.some_inj, compare_lt_iff_lt]

theorem greater_strings_iff : greater.Holds (.string s) (.string t) ↔ t < s := by
  rw [(stands_strings s t).greater_holds_iff, Option.some_inj, compare_gt_iff_gt]

theorem lessEqual_strings_iff : lessEqual.Holds (.string s) (.string t) ↔ s ≤ t := by
  rw [(stands_strings s t).lessEqual_holds_iff, Option.some_inj, Option.some_inj,
    compare_lt_iff_lt, compare_eq_iff_eq, le_iff_lt_or_eq]

theorem greaterEqual_strings_iff : greaterEqual.Holds (.string s) (.string t) ↔ t ≤ s := by
  rw [(stands_strings s t).greaterEqual_holds_iff, Option.some_inj, Option.some_inj,
    compare_gt_iff_gt, compare_eq_iff_eq, le_iff_lt_or_eq, eq_comm]

/-- A comparison of two strings says yes or no. -/
theorem holds_or_denies_strings {op : BinaryOp} (hop : op ∈ equal :: ordering) :
    op.Holds (.string s) (.string t) ∨ op.Denies (.string s) (.string t) := by
  rcases List.mem_cons.mp hop with rfl | hop
  · exact holds_or_denies_of_apply rfl
  · exact holds_or_denies_of_apply ((stands_strings s t).apply_eq hop)

/-- Which of `<`, `==` and `>` it is that an ordering is told by. -/
def ofOrdering : Ordering → BinaryOp
  | .lt => less
  | .eq => equal
  | .gt => greater

theorem ofOrdering_holds_iff {o : Ordering} :
    (ofOrdering o).Holds (.string s) (.string t) ↔ compare s t = o := by
  cases o with
  | lt => rw [ofOrdering, less_strings_iff, compare_lt_iff_lt]
  | eq => rw [ofOrdering, equal_holds_strings_iff, compare_eq_iff_eq]
  | gt => rw [ofOrdering, greater_strings_iff, compare_gt_iff_gt]

theorem mem_ofOrdering_iff {op : BinaryOp} :
    op ∈ [less, equal, greater] ↔ ∃ o, op = ofOrdering o := by
  constructor
  · intro hop
    simp only [List.mem_cons, List.not_mem_nil, or_false] at hop
    rcases hop with rfl | rfl | rfl
    · exact ⟨.lt, rfl⟩
    · exact ⟨.eq, rfl⟩
    · exact ⟨.gt, rfl⟩
  · rintro ⟨o, rfl⟩
    cases o <;> decide

/-- Of two strings one is less, or they are equal. -/
theorem existsUnique_strings (s t : String) :
    ∃! op, op ∈ [less, equal, greater] ∧ op.Holds (.string s) (.string t) := by
  refine ⟨ofOrdering (compare s t), ⟨mem_ofOrdering_iff.mpr ⟨_, rfl⟩,
    ofOrdering_holds_iff.mpr rfl⟩, ?_⟩
  rintro op ⟨hop, hholds⟩
  obtain ⟨o, rfl⟩ := mem_ofOrdering_iff.mp hop
  rw [ofOrdering_holds_iff.mp hholds]

/-- Two strings are added by writing one after the other. -/
theorem add_strings (s t : String) : add.apply (.string s) (.string t) = .ok (.string (s ++ t)) :=
  rfl

end BinaryOp

open BinaryOp

/-- **Strings are totally ordered.**  Of two strings one is less, or they are equal, and every
comparison of them says yes or no; `<=` is less or equal, and `>=` is not less.  What is less than
less is less.  A string is less than another one iff its bytes are, iff its scalar values are, and
iff it is so behind any common beginning. -/
theorem strings_totally_ordered (s t u : String) :
    (∃! op, op ∈ [less, equal, greater] ∧ op.Holds (.string s) (.string t)) ∧
    (∀ op ∈ equal :: ordering,
      op.Holds (.string s) (.string t) ∨ op.Denies (.string s) (.string t)) ∧
    (lessEqual.Holds (.string s) (.string t) ↔
      less.Holds (.string s) (.string t) ∨ equal.Holds (.string s) (.string t)) ∧
    (greaterEqual.Holds (.string s) (.string t) ↔ ¬ less.Holds (.string s) (.string t)) ∧
    (less.Holds (.string s) (.string t) → less.Holds (.string t) (.string u) →
      less.Holds (.string s) (.string u)) ∧
    (less.Holds (.string s) (.string t) ↔ Text.bytes s < Text.bytes t) ∧
    (less.Holds (.string s) (.string t) ↔ Text.scalars s < Text.scalars t) ∧
    ∃ us ut, add.apply (.string u) (.string s) = .ok us ∧
      add.apply (.string u) (.string t) = .ok ut ∧
      (less.Holds (.string s) (.string t) ↔ less.Holds us ut) := by
  refine ⟨existsUnique_strings s t, fun op hop => holds_or_denies_strings hop, ?_, ?_, ?_, ?_, ?_,
    _, _, add_strings u s, add_strings u t, ?_⟩
  · rw [lessEqual_strings_iff, less_strings_iff, equal_holds_strings_iff, le_iff_lt_or_eq]
  · rw [greaterEqual_strings_iff, less_strings_iff, not_lt]
  · rw [less_strings_iff, less_strings_iff, less_strings_iff]
    exact lt_trans
  · rw [less_strings_iff, Text.bytes_lt_iff]
  · rw [less_strings_iff, Text.scalars_lt_iff]
  · rw [less_strings_iff, less_strings_iff, Text.append_lt_append_iff]

/-- A letter, a letter of three bytes and a character of four bytes, in this order. -/
theorem characters_of_more_bytes_are_greater :
    let a := Value.string "z"
    let b := Value.string "\uff5e"
    let c := Value.string "😀"
    less.Holds a b ∧ less.Holds b c ∧ less.Holds a c := by
  intro a b c
  have hab : less.Holds a b := by rfl
  have hbc : less.Holds b c := by rfl
  obtain ⟨-, -, -, -, htrans, -⟩ := strings_totally_ordered "z" "\uff5e" "😀"
  exact ⟨hab, hbc, htrans hab hbc⟩

end Reckon
