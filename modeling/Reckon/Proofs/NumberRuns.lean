import Mathlib.Data.List.TakeWhile
import Mathlib.Order.Basic
import Reckon.Token
/-!
# Runs of digits and points

A run of digits and points is one token, whatever is made of it.  It is a number iff it has a digit
and not two points, since a numeral without sign and exponent is digits with at most one point among
them.

* `Numeral.decimal?_isSome_iff` — which runs are decimals;
* `readNumber_cases` — a run is read as a number or as a fault.
-/

namespace Reckon

/-- A run of digits and points that is a number: it has a digit, and not two points. -/
def IsDecimalRun (run : List Char) : Prop := (∃ c ∈ run, c.isDigit) ∧ run.count '.' ≤ 1

/-- Digits, and what follows them in a run: nothing, or a point. -/
theorem exists_digits_of_numeric {run : List Char} (h : ∀ c ∈ run, isNumeric c) :
    ∃ digits, (∀ c ∈ digits, c.isDigit) ∧ (run = digits ∨ ∃ rest, run = digits ++ '.' :: rest) := by
  have hsplit : run.takeWhile Char.isDigit ++ run.dropWhile Char.isDigit = run :=
    List.takeWhile_append_dropWhile
  refine ⟨run.takeWhile Char.isDigit, fun c hc => List.mem_takeWhile_imp hc, ?_⟩
  cases hrest : run.dropWhile Char.isDigit with
  | nil => exact .inl (by rwa [hrest, List.append_nil, eq_comm] at hsplit)
  | cons c rest =>
    have hmem : c ∈ run := (List.dropWhile_sublist _).subset (hrest ▸ List.mem_cons_self)
    have hnot : c.isDigit = false := by
      simpa [hrest] using List.head?_dropWhile_not Char.isDigit run
    have hpoint : c = '.' := by simpa [isNumeric, hnot] using h c hmem
    exact .inr ⟨rest, by rw [← hpoint, ← hrest, hsplit]⟩

theorem exists_isDigit_iff {digits : List Char} (h : ∀ c ∈ digits, c.isDigit) :
    (∃ c ∈ digits, c.isDigit) ↔ digits ≠ [] := by
  constructor
  · rintro ⟨c, hc, -⟩
    exact List.ne_nil_of_mem hc
  · intro hne
    obtain ⟨c, hc⟩ := List.exists_mem_of_ne_nil digits hne
    exact ⟨c, hc, h c hc⟩

theorem count_point_digits {digits : List Char} (h : ∀ c ∈ digits, c.isDigit) :
    digits.count '.' = 0 :=
  List.count_eq_zero.mpr fun hmem => absurd (h '.' hmem) (by decide)

namespace Numeral

theorem toLower_of_isNumeric {c : Char} (h : isNumeric c) : c.toLower = c := by
  have hsmall : ¬ (c.val ≥ 'A'.val) := by
    rcases of_decide_eq_true h with hdigit | rfl
    · have hle := (Char.isDigit_iff_toNat.mp hdigit).2
      rw [ge_iff_le, UInt32.le_iff_toNat_le, not_le]
      exact Nat.lt_of_le_of_lt hle (by decide)
    · decide
  exact dif_neg fun hupper => hsmall hupper.1

/-- A run of digits and points is no word. -/
theorem unsigned?_of_numeric {run : List Char} (h : ∀ c ∈ run, isNumeric c) :
    unsigned? run = (decimal? run).map .decimal := by
  have hlower : run.map Char.toLower = run :=
    (List.map_congr_left (g := id) fun c hc => toLower_of_isNumeric (h c hc)).trans
      (List.map_id run)
  have hword {c : Char} (cs : List Char) (hc : isNumeric c = false) :
      String.ofList run ≠ String.ofList (c :: cs) := by
    intro heq
    have hmem : c ∈ run := by
      rw [String.ofList_inj.mp heq]
      exact List.mem_cons_self
    simp [h c hmem] at hc
  have hinf : String.ofList run ≠ "inf" := hword ['n', 'f'] (by decide)
  have hinfinity : String.ofList run ≠ "infinity" :=
    hword ['n', 'f', 'i', 'n', 'i', 't', 'y'] (by decide)
  have hnan : String.ofList run ≠ "nan" := hword ['a', 'n'] (by decide)
  simp [unsigned?, hlower, hinf, hinfinity, hnan]

/-- Nothing is taken off the front of what starts with no sign. -/
theorem splitSign_of_ne {cs : List Char} (h : ∀ c ∈ cs.head?, c ≠ '+' ∧ c ≠ '-') :
    splitSign cs = (false, cs) := by
  unfold splitSign
  split
  · exact absurd rfl (h '-' rfl).2
  · exact absurd rfl (h '+' rfl).1
  · rfl

theorem ne_sign_of_isNumeric {c : Char} (h : isNumeric c) : c ≠ '+' ∧ c ≠ '-' := by
  constructor
  · intro hsign
    subst hsign
    exact absurd h (by decide)
  · intro hsign
    subst hsign
    exact absurd h (by decide)

/-- A run of digits and points has no sign and is no word. -/
theorem read?_of_numeric {run : List Char} (h : ∀ c ∈ run, isNumeric c) :
    read? run = ((decimal? run).map .decimal).map (toNumber false) := by
  have hsign : splitSign run = (false, run) :=
    splitSign_of_ne fun c hc => ne_sign_of_isNumeric (h c (List.mem_of_mem_head? hc))
  simp [read?, hsign, unsigned?_of_numeric h]

/-- Digits are split off before what does not go on with them. -/
theorem splitDigits_append {digits rest : List Char} (h : ∀ c ∈ digits, c.isDigit)
    (hrest : ∀ c ∈ rest.head?, ¬ c.isDigit) : splitDigits (digits ++ rest) = (digits, rest) := by
  rw [splitDigits, List.takeWhile_append_of_pos h, List.dropWhile_append_of_pos h]
  cases rest with
  | nil => simp
  | cons c rest =>
    have hc := hrest c rfl
    rw [List.takeWhile_cons_of_neg hc, List.dropWhile_cons_of_neg hc, List.append_nil]

theorem splitDigits_digits {digits : List Char} (h : ∀ c ∈ digits, c.isDigit) :
    splitDigits digits = (digits, []) := by
  have hnone : ∀ c ∈ ([] : List Char).head?, ¬ c.isDigit := by simp
  simpa using splitDigits_append h hnone

theorem splitDigits_point {digits : List Char} (h : ∀ c ∈ digits, c.isDigit) (rest : List Char) :
    splitDigits (digits ++ '.' :: rest) = (digits, '.' :: rest) :=
  splitDigits_append h (by simp)

/-- **A run of digits and points** is a decimal iff it has a digit, and not two points. -/
theorem decimal?_isSome_iff {run : List Char} (h : ∀ c ∈ run, isNumeric c) :
    (decimal? run).isSome ↔ IsDecimalRun run := by
  obtain ⟨whole, hwhole, hrun | ⟨rest, hrun⟩⟩ := exists_digits_of_numeric h
  · -- no point
    subst hrun
    rw [IsDecimalRun, exists_isDigit_iff hwhole, count_point_digits hwhole]
    simp [decimal?, splitDigits_digits hwhole, splitFraction, exponent?]
  have hrest : ∀ c ∈ rest, isNumeric c := fun c hc => h c (by simp [hrun, hc])
  obtain ⟨fraction, hfraction, htail | ⟨tail, htail⟩⟩ := exists_digits_of_numeric hrest
  · -- one point: a digit on either side of it is enough
    have hread : (decimal? run).isSome ↔ ¬ (whole = [] ∧ fraction = []) := by
      simp [decimal?, hrun, splitDigits_point hwhole, splitFraction, htail,
        splitDigits_digits hfraction, exponent?]
    have hdigit : (∃ c ∈ run, c.isDigit) ↔ whole ≠ [] ∨ fraction ≠ [] := by
      rw [← exists_isDigit_iff hwhole, ← exists_isDigit_iff hfraction, hrun, htail]
      simp [or_and_right, exists_or]
    have hcount : run.count '.' = 1 := by
      simp [hrun, htail, List.count_append, count_point_digits hwhole,
        count_point_digits hfraction]
    rw [hread, IsDecimalRun, hdigit, hcount, not_and_or]
    exact (and_iff_left le_rfl).symm
  · -- two points: the second one is left over
    have hread : decimal? run = none := by
      simp [decimal?, hrun, splitDigits_point hwhole, splitFraction, htail,
        splitDigits_point hfraction, exponent?]
    have hcount : 1 < run.count '.' := by
      simp only [hrun, htail, List.count_append, List.count_cons_self]
      omega
    rw [hread]
    exact iff_of_false (by simp) fun hdecimal => absurd hdecimal.2 (Nat.not_le.mpr hcount)

end Numeral

/-- A run of digits and points is read as a number or as a fault, as it is one or not. -/
theorem readNumber_cases {run : List Char} (h : ∀ c ∈ run, isNumeric c) :
    (IsDecimalRun run ∧ ∃ x, readNumber run = .lexeme (.number x)) ∨
      (¬ IsDecimalRun run ∧ readNumber run = .fault (.invalidNumber (String.ofList run))) := by
  have hread := Numeral.read?_of_numeric h
  rw [← Numeral.decimal?_isSome_iff h, readNumber, hread]
  cases Numeral.decimal? run with
  | none => exact .inr ⟨by simp, rfl⟩
  | some d => exact .inl ⟨rfl, _, rfl⟩

end Reckon
