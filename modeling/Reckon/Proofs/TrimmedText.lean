import Mathlib.Data.List.DropRight
import Reckon.Text.Blank
/-!
# Texts without the white space at their ends

Trimming is cut in two here: white space is dropped in front, and then behind.  Both are runs of the
library, `List.dropWhile` and `List.rdropWhile`, and what is left is the only part of the text that
has white space around it and none at its own ends.

* `Text.Body` — the part of a text between the white space at its ends;
* `Text.trim_eq_iff` — trimming finds it;
* `Text.trim_padded` — white space put around a text is trimmed with its own.
-/

namespace Reckon

/-- What is left after a run does not go on with it. -/
theorem not_of_mem_head?_dropWhile {α : Type} {p : α → Bool} {xs : List α} :
    ∀ x ∈ (xs.dropWhile p).head?, ¬ p x := by
  intro x hx
  have hnot := List.head?_dropWhile_not p xs
  rw [Option.mem_def.mp hx] at hnot
  simpa using hnot

namespace Text

/-- The part of a text between the white space at its ends.  It has none at its own ends. -/
structure Body (text body : List Char) : Prop where
  between : ∃ before after, text = before ++ body ++ after ∧ ∀ c ∈ before ++ after, isBlank c
  first : ∀ c ∈ body.head?, ¬ isBlank c
  last : ∀ c ∈ body.getLast?, ¬ isBlank c

theorem trim_eq_rdropWhile (text : List Char) :
    trim text = (text.dropWhile isBlank).rdropWhile isBlank := rfl

/-- **White space around a text** is trimmed with what the text has itself. -/
theorem trim_padded {before after : List Char} (h : ∀ c ∈ before ++ after, isBlank c)
    (text : List Char) : trim (before ++ text ++ after) = trim text := by
  obtain ⟨hbefore, hafter⟩ := List.forall_mem_append.mp h
  rw [trim_eq_rdropWhile, trim_eq_rdropWhile, List.append_assoc,
    List.dropWhile_append_of_pos hbefore, List.dropWhile_append]
  split
  · next hblank =>
    -- the text is white space, and nothing is left on either side
    rw [List.isEmpty_iff.mp hblank, List.dropWhile_eq_nil_iff.mpr hafter]
  · rw [List.rdropWhile, List.reverse_append,
      List.dropWhile_append_of_pos fun c hc => hafter c (List.mem_reverse.mp hc)]
    rfl

/-- A text without white space at its ends is left as it is. -/
theorem trim_of_ends {text : List Char} (hfirst : ∀ c ∈ text.head?, ¬ isBlank c)
    (hlast : ∀ c ∈ text.getLast?, ¬ isBlank c) : trim text = text := by
  have hfront : text.dropWhile isBlank = text := by
    cases text with
    | nil => rfl
    | cons c text => exact List.dropWhile_cons_of_neg (hfirst c rfl)
  rw [trim_eq_rdropWhile, hfront, List.rdropWhile_eq_self_iff]
  exact fun hne => hlast _ (List.getLast?_eq_some_getLast hne)

theorem body_trim (text : List Char) : Body text (trim text) := by
  let front := text.dropWhile isBlank
  have hback : trim text ++ front.rtakeWhile isBlank = front := List.rdropWhile_append_rtakeWhile ..
  constructor
  case between =>
    refine ⟨text.takeWhile isBlank, front.rtakeWhile isBlank, ?_, fun c hc => ?_⟩
    · rw [List.append_assoc, hback, List.takeWhile_append_dropWhile]
    · rcases List.mem_append.mp hc with hc | hc
      · exact List.mem_takeWhile_imp hc
      · exact List.mem_rtakeWhile_imp hc
  case first =>
    intro c hc
    obtain ⟨rest, hrest⟩ := List.head?_eq_some_iff.mp hc
    have hfront : c ∈ front.head? := by
      rw [← hback, hrest]
      rfl
    exact not_of_mem_head?_dropWhile c hfront
  case last =>
    intro c hc
    obtain ⟨hne, rfl⟩ := List.mem_getLast?_eq_getLast hc
    exact List.rdropWhile_last_not isBlank front hne

/-- **Trimming finds the body of a text**, which is the only one. -/
theorem trim_eq_iff {text body : List Char} : trim text = body ↔ Body text body := by
  constructor
  · intro h
    subst h
    exact body_trim text
  · intro h
    obtain ⟨before, after, rfl, hblank⟩ := h.between
    rw [trim_padded hblank, trim_of_ends h.first h.last]

end Text

end Reckon
