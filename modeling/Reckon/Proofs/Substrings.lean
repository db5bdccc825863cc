import Reckon.Proofs.Comparisons
/-!
# Strings in strings

Whether one string is in another one is decided by a search among bytes.  No such search finds the
bytes of a string across the characters of another: the first byte of a character is never one of
its later bytes, so what is found begins where a character does, and the bytes of a character tell
where it ends.  So the relation is the one of substrings, and it is generated by addition.

* `Text.occursIn_iff` — the search finds what is one piece of the bytes;
* `Text.bytes_infix_iff` — pieces of the bytes are pieces of the text;
* `BinaryOp.sum` — the value of `x + y + z`;
* `membership_generated_by_addition` — membership, and its laws.
-/

namespace Reckon

/-! ### Bytes among bytes -/

namespace Text

theorem occursIn_iff {needle bs : List UInt8} : occursIn needle bs ↔ needle <:+: bs := by
  induction bs with
  | nil => simp [occursIn]
  | cons b bs ih =>
    rw [occursIn, Bool.or_eq_true, ih, List.isPrefixOf_iff_prefix, List.infix_cons_iff]

/-- Only the first byte of a character is one that a character begins with. -/
theorem utf8EncodeChar_eq_cons (c : Char) : ∃ b bs, String.utf8EncodeChar c = b :: bs ∧
    b.IsUTF8FirstByte ∧ ∀ b' ∈ bs, ¬ b'.IsUTF8FirstByte := by
  have hfirst {i : Nat} (hi : i < (String.utf8EncodeChar c).length) :
      (String.utf8EncodeChar c)[i].IsUTF8FirstByte ↔ i = 0 := by
    have hsize : i < [c].utf8Encode.size := by
      rwa [List.utf8Encode_singleton, List.size_toByteArray]
    rw [← @List.isUTF8FirstByte_getElem_utf8Encode_singleton c i hsize]
    simp [List.utf8Encode_singleton, List.getElem_toByteArray]
  obtain ⟨b, bs, hc⟩ : ∃ b bs, String.utf8EncodeChar c = b :: bs := by
    apply List.exists_cons_of_length_pos
    rw [String.length_utf8EncodeChar]
    exact c.utf8Size_pos
  simp only [hc] at hfirst
  refine ⟨b, bs, hc, (hfirst (i := 0) (by simp)).mpr rfl, fun b' hb' hbegins => ?_⟩
  obtain ⟨i, hi, rfl⟩ := List.mem_iff_getElem.mp hb'
  have hzero := (hfirst (i := i + 1) (by simpa using hi)).mp (by simpa using hbegins)
  exact absurd hzero (Nat.succ_ne_zero i)

/-- The bytes of a character tell where they end. -/
theorem utf8EncodeChar_append_inj {c d : Char} {x y : List UInt8}
    (h : String.utf8EncodeChar c ++ x = String.utf8EncodeChar d ++ y) : c = d ∧ x = y := by
  rcases lt_trichotomy c d with hlt | rfl | hgt
  · have hless := utf8EncodeChar_append_lt hlt x y
    rw [h] at hless
    exact absurd hless (List.lt_irrefl _)
  · exact ⟨rfl, List.append_cancel_left h⟩
  · have hless := utf8EncodeChar_append_lt hgt y x
    rw [h] at hless
    exact absurd hless (List.lt_irrefl _)

theorem isPrefix_of_bytes {cs ds : List Char}
    (h : cs.flatMap String.utf8EncodeChar <+: ds.flatMap String.utf8EncodeChar) : cs <+: ds := by
  induction cs generalizing ds with
  | nil => exact List.nil_prefix
  | cons c cs ih =>
    obtain ⟨rest, hrest⟩ := h
    cases ds with
    | nil =>
      obtain ⟨b, bs, hc, -⟩ := utf8EncodeChar_eq_cons c
      simp [hc] at hrest
    | cons d ds =>
      simp only [List.flatMap_cons, List.append_assoc] at hrest
      obtain ⟨rfl, htail⟩ := utf8EncodeChar_append_inj hrest
      exact List.cons_prefix_cons.mpr ⟨rfl, ih ⟨rest, htail⟩⟩

/-- What stands behind the first byte of a character, and begins with a byte that a character begins
with, stands behind the whole character. -/
theorem append_eq_append_of_first {p bs x y : List UInt8} {b : UInt8} (hb : b.IsUTF8FirstByte)
    (hbs : ∀ b' ∈ bs, ¬ b'.IsUTF8FirstByte) (h : p ++ b :: x = bs ++ y) :
    ∃ p', y = p' ++ b :: x := by
  obtain ⟨p', -, hy⟩ | ⟨q, rfl, hq⟩ := List.append_eq_append_iff.mp h.symm
  · exact ⟨p', hy⟩
  · cases q with
    | nil => exact ⟨[], hq.symm⟩
    | cons b' q =>
      obtain ⟨rfl, -⟩ := List.cons.inj hq
      exact absurd hb (hbs b (by simp))

theorem isInfix_of_bytes {cs ds : List Char}
    (h : cs.flatMap String.utf8EncodeChar <:+: ds.flatMap String.utf8EncodeChar) : cs <:+: ds := by
  cases cs with
  | nil => exact List.nil_infix
  | cons c cs =>
    obtain ⟨b, bs, hc, hb, -⟩ := utf8EncodeChar_eq_cons c
    induction ds with
    | nil => simp [hc] at h
    | cons d ds ih =>
      obtain ⟨p, q, hpq⟩ := h
      rw [List.append_assoc] at hpq
      cases p with
      | nil => exact (isPrefix_of_bytes ⟨q, hpq⟩).isInfix
      | cons e p =>
        -- The piece begins behind the first byte of `d`, and so among the characters after it.
        obtain ⟨e', es, hd, -, hes⟩ := utf8EncodeChar_eq_cons d
        simp only [List.flatMap_cons, hc, hd, List.cons_append, List.cons.injEq] at hpq
        obtain ⟨p', hp'⟩ := append_eq_append_of_first hb hes hpq.2
        refine List.infix_cons (ih ⟨p', q, ?_⟩)
        simp [hp', hc]

/-- **Pieces of the bytes are pieces of the text.** -/
theorem bytes_infix_iff {s t : String} : bytes s <:+: bytes t ↔ s.toList <:+: t.toList := by
  rw [bytes_eq_flatMap, bytes_eq_flatMap]
  refine ⟨isInfix_of_bytes, ?_⟩
  rintro ⟨p, q, h⟩
  exact ⟨p.flatMap String.utf8EncodeChar, q.flatMap String.utf8EncodeChar, by simp [← h]⟩

end Text

/-! ### Membership of strings -/

namespace BinaryOp

/-- The value of `x + y + z`. -/
def sum (x y z : Value) : Except EvalError Value := do
  add.apply (← add.apply x y) z

variable {s t u x y : String}

theorem sum_strings (x s y : String) :
    sum (.string x) (.string s) (.string y) = .ok (.string (x ++ s ++ y)) :=
  rfl

theorem member_strings (s t : String) :
    member.apply (.string s) (.string t) =
      .ok (.boolean (Text.occursIn (Text.bytes s) (Text.bytes t))) :=
  rfl

theorem member_strings_iff_bytes :
    member.Holds (.string s) (.string t) ↔ Text.bytes s <:+: Text.bytes t := by
  rw [holds_iff_of_apply (member_strings s t), Text.occursIn_iff]

theorem member_strings_iff :
    member.Holds (.string s) (.string t) ↔ s.toList <:+: t.toList := by
  rw [member_strings_iff_bytes, Text.bytes_infix_iff]

/-- What is added to a string on its sides does not take anything out of it. -/
theorem member_around (x s y : String) : member.Holds (.string s) (.string (x ++ s ++ y)) := by
  rw [member_strings_iff, String.toList_append, String.toList_append]
  exact List.infix_append _ _ _

theorem member_trans (hst : member.Holds (.string s) (.string t))
    (htu : member.Holds (.string t) (.string u)) : member.Holds (.string s) (.string u) := by
  rw [member_strings_iff] at *
  exact hst.trans htu

/-- **Membership is generated by addition.** -/
theorem member_iff_exists_sum : member.Holds (.string s) (.string t) ↔
    ∃ (x y : String) (v : Value),
      sum (.string x) (.string s) (.string y) = .ok v ∧ equal.Holds v (.string t) := by
  constructor
  · intro h
    obtain ⟨p, q, hpq⟩ := member_strings_iff.mp h
    refine ⟨.ofList p, .ofList q, _, sum_strings .., equal_holds_strings_iff.mpr ?_⟩
    rw [← String.toList_inj]
    simp [← hpq]
  · rintro ⟨x, y, v, hsum, hequal⟩
    cases hsum
    rw [← equal_holds_strings_iff.mp hequal]
    exact member_around x s y

end BinaryOp

open BinaryOp

/-- **Membership of strings.**  It is decided, and holds iff the first string with some strings
added on its sides equals the second one, which is so iff the bytes of the first one are a piece of
the bytes of the second.  Every string is in itself, and the empty one is in every string; what is
in a string is in every string that this one is in, and in every sum with this one between two
others; and two strings that are in each other are equal. -/
theorem membership_generated_by_addition (s t u : String) :
    (member.Holds (.string s) (.string t) ∨ member.Denies (.string s) (.string t)) ∧
    (member.Holds (.string s) (.string t) ↔ ∃ (x y : String) (v : Value),
      sum (.string x) (.string s) (.string y) = .ok v ∧ equal.Holds v (.string t)) ∧
    (member.Holds (.string s) (.string t) ↔ Text.bytes s <:+: Text.bytes t) ∧
    member.Holds (.string s) (.string s) ∧
    member.Holds (.string "") (.string s) ∧
    (member.Holds (.string s) (.string t) → member.Holds (.string t) (.string u) →
      member.Holds (.string s) (.string u)) ∧
    (member.Holds (.string s) (.string t) → member.Holds (.string t) (.string s) →
      equal.Holds (.string s) (.string t)) ∧
    (member.Holds (.string s) (.string t) → ∀ x y : String,
      ∃ v, sum (.string x) (.string t) (.string y) = .ok v ∧ member.Holds (.string s) v) := by
  refine ⟨holds_or_denies_of_apply (member_strings s t), member_iff_exists_sum,
    member_strings_iff_bytes, ?_, ?_, member_trans, fun hst hts => ?_, fun hst x y => ?_⟩
  · exact member_strings_iff.mpr List.infix_rfl
  · exact member_strings_iff.mpr List.nil_infix
  · rw [member_strings_iff] at hst hts
    have hlength := Nat.le_antisymm hst.length_le hts.length_le
    exact equal_holds_strings_iff.mpr (String.toList_inj.mp (hst.eq_of_length hlength))
  · exact ⟨_, sum_strings x t y, member_trans hst (member_around x t y)⟩

/-- A letter of two bytes in words that have it in the middle. -/
theorem accented_letter_in_words :
    let a := Value.string "é"
    let b := Value.string "né"
    let c := Value.string "née"
    member.Holds a b ∧ member.Holds b c ∧ member.Holds a c ∧ equal.Holds a a ∧
      ∃ v, sum (.string "a") b (.string "ée") = .ok v ∧ member.Holds a v := by
  intro a b c
  have hab : member.Holds a b := by rfl
  have hbc : member.Holds b c := by rfl
  obtain ⟨-, -, -, hrefl, -, htrans, -, hsums⟩ := membership_generated_by_addition "é" "né" "née"
  obtain ⟨-, -, -, -, -, -, hantisymm, -⟩ := membership_generated_by_addition "é" "é" "né"
  exact ⟨hab, hbc, htrans hab hbc, hantisymm hrefl hrefl, hsums hab "a" "ée"⟩

end Reckon
