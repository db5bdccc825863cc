import Mathlib.Data.String.Basic
import Mathlib.Tactic.SplitIfs
import Reckon.Text.Bytes
/-!
# The order of strings

Strings are ordered by their characters, and their UTF-8 bytes give the same order.  A greater
character has a greater encoding, and the two differ within the shorter one, so that whatever
follows does not matter.

* `utf8EncodeChar_append_lt` — the encodings of two characters;
* `bytes_lt_iff` — the bytes of two strings;
* `compare_bytes` — a comparison of the bytes is one of the strings.
-/

namespace Reckon.Text

/-- The bytes of a string are those of its characters. -/
theorem bytes_eq_flatMap (s : String) : bytes s = s.toList.flatMap String.utf8EncodeChar := by
  calc bytes s = (String.ofList s.toList).toUTF8.data.toList := by rw [String.ofList_toList]; rfl
    _ = s.toList.flatMap String.utf8EncodeChar := by
      rw [String.toUTF8_eq_toByteArray, String.toByteArray_ofList, List.utf8Encode,
        List.toList_data_toByteArray]

/-- A greater character has greater bytes, whatever follows them. -/
theorem utf8EncodeChar_append_lt {c d : Char} (h : c < d) (x y : List UInt8) :
    String.utf8EncodeChar c ++ x < String.utf8EncodeChar d ++ y := by
  have hcode : c.val.toNat < d.val.toNat := h
  have hbound : d.val.toNat < 0x110000 := by
    have hvalid := d.valid
    simp only [UInt32.isValidChar, Nat.isValidChar] at hvalid
    omega
  unfold String.utf8EncodeChar
  dsimp only
  -- Each byte is a digit of the code in base 64, the first one with a mark for their number, and
  -- the bounds on the code take the reductions to eight bits away.
  split_ifs <;> simp (disch := omega) only [List.cons_append, List.nil_append,
    List.cons_lt_cons_iff, UInt8.lt_iff_toNat_lt, ← UInt8.toNat_inj, UInt8.toNat_ofNat',
    Nat.mod_eq_of_lt] <;> omega

theorem flatMap_utf8EncodeChar_lt {cs ds : List Char} (h : cs < ds) :
    cs.flatMap String.utf8EncodeChar < ds.flatMap String.utf8EncodeChar := by
  induction cs generalizing ds with
  | nil =>
    cases ds with
    | nil => exact absurd h (List.not_lt_nil _)
    | cons d ds =>
      obtain ⟨b, bs, hd⟩ : ∃ b bs, String.utf8EncodeChar d = b :: bs := by
        apply List.exists_cons_of_length_pos
        rw [String.length_utf8EncodeChar]
        exact d.utf8Size_pos
      simp [hd]
  | cons c cs ih =>
    cases ds with
    | nil => exact absurd h (List.not_lt_nil _)
    | cons d ds =>
      rcases List.cons_lt_cons_iff.mp h with hlt | ⟨rfl, hrest⟩
      · exact utf8EncodeChar_append_lt hlt _ _
      · exact List.append_left_lt (ih hrest)

/-- **Strings have the order of their bytes.** -/
theorem bytes_lt_iff {s t : String} : bytes s < bytes t ↔ s < t := by
  have hmono {s t : String} (h : s < t) : bytes s < bytes t := by
    rw [bytes_eq_flatMap, bytes_eq_flatMap]
    exact flatMap_utf8EncodeChar_lt h
  refine ⟨fun h => ?_, hmono⟩
  rcases lt_trichotomy s t with hlt | rfl | hgt
  · exact hlt
  · exact absurd h (List.lt_irrefl _)
  · exact absurd h (List.lt_asymm (hmono hgt))

/-- Of two lists of bytes the one that compares as less is less. -/
theorem compare_eq_lt_iff {xs ys : List UInt8} : compare xs ys = .lt ↔ xs < ys := by
  induction xs generalizing ys with
  | nil => cases ys <;> simp
  | cons x xs ih =>
    cases ys with
    | nil => simp
    | cons y ys =>
      rw [List.compare_cons_cons, Ordering.then_eq_lt, List.cons_lt_cons_iff, ih,
        Std.compare_eq_iff_eq]
      exact or_congr_left compareOfLessAndEq_eq_lt

/-- **Strings are compared by their bytes** with the outcome that their characters have. -/
theorem compare_bytes (s t : String) : compare (bytes s) (bytes t) = compare s t := by
  rcases lt_trichotomy s t with hlt | rfl | hgt
  · rw [compare_eq_lt_iff.mpr (bytes_lt_iff.mpr hlt), compare_lt_iff_lt.mpr hlt]
  · rw [Std.compare_eq_iff_eq.mpr rfl, compare_eq_iff_eq.mpr rfl]
  · rw [Std.OrientedOrd.eq_swap, compare_eq_lt_iff.mpr (bytes_lt_iff.mpr hgt),
      compare_gt_iff_gt.mpr hgt]
    rfl

end Reckon.Text
