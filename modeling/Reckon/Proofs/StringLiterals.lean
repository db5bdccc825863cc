import Mathlib.Algebra.Group.Nat.Even
import Mathlib.Data.List.DropRight
import Reckon.Token
/-!
# String literals

A string is read from its opening quote on, an escape at a time.  Where it ends can be told without
that: at the first quote with an even number of backslashes directly before it, as these pair off
among themselves and leave the quote alone.  So every text can be the value of a string: a backslash
before each quote and each backslash of it makes all of them part of an escape.

* `ClosesAfter` — a quote that ends a string, told by the backslashes before it;
* `firstClosesAfter_of_readString` — a string is read up to the first such quote;
* `readString_escaped` — a text that is escaped reads as the text;
* `string_literal_extent` — both, for what a scan makes of a literal.
-/

namespace Reckon

/-! ### Where a string ends -/

/-- The backslashes in a row at the end of a text. -/
def trailingBackslashes (cs : List Char) : Nat := (cs.rtakeWhile (· = '\\')).length

/-- After `front` the text goes on with a quote that no backslash hides. -/
structure ClosesAfter (cs front : List Char) : Prop where
  quote : front ++ ['"'] <+: cs
  even : Even (trailingBackslashes front)

/-- The first such quote of the text. -/
structure FirstClosesAfter (cs front : List Char) : Prop extends ClosesAfter cs front where
  first : ∀ other, ClosesAfter cs other → front <+: other

theorem trailingBackslashes_eq_length {cs : List Char} (h : ∀ d ∈ cs, d = '\\') :
    trailingBackslashes cs = cs.length := by
  have hself : cs.rtakeWhile (· = '\\') = cs := List.rtakeWhile_eq_self_iff.mpr (by simpa using h)
  rw [trailingBackslashes, hself]

/-- A character in front counts only if it is a backslash and nothing but backslashes follow. -/
theorem trailingBackslashes_cons {c : Char} {cs : List Char}
    (h : ¬ (c = '\\' ∧ ∀ d ∈ cs, d = '\\')) :
    trailingBackslashes (c :: cs) = trailingBackslashes cs := by
  by_cases hcs : ∀ d ∈ cs, d = '\\'
  · have hc : c ≠ '\\' := fun hc => h ⟨hc, hcs⟩
    have hstop : (cs.reverse ++ [c]).takeWhile (· = '\\') = cs.reverse := by
      rw [List.takeWhile_append_of_pos (by simpa using hcs)]
      simp [hc]
    rw [trailingBackslashes_eq_length hcs]
    simp [trailingBackslashes, List.rtakeWhile, hstop]
  · have hshort : (cs.reverse.takeWhile (· = '\\')).length ≠ cs.reverse.length := by
      intro hlength
      apply hcs
      have hall := List.takeWhile_eq_self_iff.mp
        ((List.takeWhile_prefix _).eq_of_length hlength)
      simpa using hall
    simp only [trailingBackslashes, List.rtakeWhile, List.reverse_cons, List.takeWhile_append,
      if_neg hshort]

/-- An escape in front hides itself only. -/
theorem even_trailingBackslashes_escape (c : Char) (cs : List Char) :
    Even (trailingBackslashes ('\\' :: c :: cs)) ↔ Even (trailingBackslashes cs) := by
  by_cases hall : c = '\\' ∧ ∀ d ∈ cs, d = '\\'
  · obtain ⟨rfl, hcs⟩ := hall
    rw [trailingBackslashes_eq_length (by simpa using hcs), trailingBackslashes_eq_length hcs]
    simp [Nat.even_add_one]
  · rw [trailingBackslashes_cons (by simpa using hall), trailingBackslashes_cons hall]

section Closes

variable {c : Char} {cs front : List Char}

/-- No quote ends a string inside of an escape. -/
theorem closesAfter_escape_iff :
    ClosesAfter ('\\' :: c :: cs) front ↔
      ∃ inner, front = '\\' :: c :: inner ∧ ClosesAfter cs inner := by
  constructor
  · rintro ⟨hquote, heven⟩
    rcases front with _ | ⟨b, _ | ⟨d, inner⟩⟩
    · simp at hquote
    · -- a single backslash before the quote hides it
      obtain ⟨rfl, -⟩ := List.cons_prefix_cons.mp hquote
      rw [trailingBackslashes_eq_length (by simp)] at heven
      simp at heven
    · obtain ⟨rfl, htail⟩ := List.cons_prefix_cons.mp hquote
      obtain ⟨rfl, hinner⟩ := List.cons_prefix_cons.mp htail
      exact ⟨inner, rfl, hinner, (even_trailingBackslashes_escape _ _).mp heven⟩
  · rintro ⟨inner, rfl, hquote, heven⟩
    exact ⟨by simpa using hquote, (even_trailingBackslashes_escape _ _).mpr heven⟩

/-- Any other character but a quote lets a string go on. -/
theorem closesAfter_cons_iff (hquote : c ≠ '"') (hescape : c ≠ '\\') :
    ClosesAfter (c :: cs) front ↔ ∃ inner, front = c :: inner ∧ ClosesAfter cs inner := by
  have htrailing (inner : List Char) :
      trailingBackslashes (c :: inner) = trailingBackslashes inner :=
    trailingBackslashes_cons fun h => hescape h.1
  constructor
  · rintro ⟨hbegins, heven⟩
    cases front with
    | nil => exact absurd (List.cons_prefix_cons.mp hbegins).1.symm hquote
    | cons d inner =>
      obtain ⟨hd, hinner⟩ := List.cons_prefix_cons.mp hbegins
      subst hd
      exact ⟨inner, rfl, hinner, htrailing inner ▸ heven⟩
  · rintro ⟨inner, rfl, hbegins, heven⟩
    exact ⟨by simpa using hbegins, (htrailing inner).symm ▸ heven⟩

/-- What closes first behind a piece that hides nothing closes first if it does without it. -/
theorem FirstClosesAfter.behind (piece : List Char) (h : FirstClosesAfter cs front)
    (hpiece : ∀ other, ClosesAfter (piece ++ cs) other ↔
      ∃ inner, other = piece ++ inner ∧ ClosesAfter cs inner) :
    FirstClosesAfter (piece ++ cs) (piece ++ front) := by
  refine ⟨(hpiece _).mpr ⟨front, rfl, h.toClosesAfter⟩, fun other hother => ?_⟩
  obtain ⟨inner, rfl, hinner⟩ := (hpiece _).mp hother
  exact (List.prefix_append_right_inj piece).mpr (h.first inner hinner)

end Closes

/-- **A string that is read** ends with the first quote that no backslash hides. -/
theorem firstClosesAfter_of_readString {cs : List Char} {body : StringBody}
    (h : readString cs = some body) :
    ∃ front, body.text = front ++ ['"'] ∧ FirstClosesAfter cs front := by
  fun_induction readString cs generalizing body with
  | case1 => cases h
  | case2 cs =>
    cases h
    exact ⟨[], rfl, ⟨⟨cs, rfl⟩, Even.zero⟩, fun _ _ => List.nil_prefix⟩
  | case3 => cases h
  | case4 c cs ih =>
    obtain ⟨inner, hinner, rfl⟩ := Option.map_eq_some_iff.mp h
    obtain ⟨front, htext, hfirst⟩ := ih hinner
    have hbehind := hfirst.behind ['\\', c] fun _ => closesAfter_escape_iff
    exact ⟨'\\' :: c :: front, by simp [StringBody.extend, htext], hbehind⟩
  | case5 c cs hquote hescape ih =>
    obtain ⟨inner, hinner, rfl⟩ := Option.map_eq_some_iff.mp h
    obtain ⟨front, htext, hfirst⟩ := ih hinner
    have hbehind := hfirst.behind [c] fun _ => closesAfter_cons_iff hquote hescape
    exact ⟨c :: front, by simp [StringBody.extend, htext], hbehind⟩

/-- A text that is not read has no quote that ends a string. -/
theorem not_closesAfter_of_readString {cs : List Char} (h : readString cs = none)
    (front : List Char) : ¬ ClosesAfter cs front := by
  fun_induction readString cs generalizing front with
  | case1 => exact fun hclose => by simpa using hclose.quote
  | case2 cs => cases h
  | case3 =>
    -- a quote after the lone backslash would be a second character
    intro hclose
    have hlength := hclose.quote.length_le
    obtain rfl : front = [] := by simpa using hlength
    simpa using hclose.quote
  | case4 c cs ih =>
    intro hclose
    obtain ⟨inner, -, hinner⟩ := closesAfter_escape_iff.mp hclose
    exact ih (Option.map_eq_none_iff.mp h) inner hinner
  | case5 c cs hquote hescape ih =>
    intro hclose
    obtain ⟨inner, -, hinner⟩ := (closesAfter_cons_iff hquote hescape).mp hclose
    exact ih (Option.map_eq_none_iff.mp h) inner hinner

/-! ### How every string is written -/

/-- The text with a backslash before each backslash and each quote. -/
def escaped (cs : List Char) : List Char :=
  cs.flatMap fun c => if c = '\\' ∨ c = '"' then ['\\', c] else [c]

/-- A string as a literal. -/
def stringLiteral (s : String) : String := "\"" ++ String.ofList (escaped s.toList) ++ "\""

/-- **An escaped text** before a quote reads as the text. -/
theorem readString_escaped (cs rest : List Char) :
    readString (escaped cs ++ '"' :: rest) = some ⟨escaped cs ++ ['"'], cs, rest⟩ := by
  induction cs with
  | nil => rfl
  | cons c cs ih =>
    by_cases hspecial : c = '\\' ∨ c = '"'
    · have hsplit : escaped (c :: cs) = '\\' :: c :: escaped cs := by
        simp [escaped, hspecial]
      have hvalue : unescape c = [c] := by
        rcases hspecial with rfl | rfl <;> rfl
      simp [hsplit, readString, ih, StringBody.extend, hvalue]
    · have hsplit : escaped (c :: cs) = c :: escaped cs := by
        simp [escaped, hspecial]
      obtain ⟨hescape, hquote⟩ := not_or.mp hspecial
      simp [hsplit, readString, ih, StringBody.extend]

/-! ### What a scan makes of a quote -/

theorem munch_quote (cs : List Char) : munch '"' cs = munchString cs := rfl

/-- A scan reads a literal as the string, and goes on behind its closing quote. -/
theorem scan_stringLiteral (s after : String) (collect : Bool) :
    scan (stringLiteral s ++ after) collect =
      ((scanFrom collect (stringLiteral s).utf8ByteSize after.toList).withLexeme
        ⟨.string s, 0⟩).withToken ⟨.lexeme (.string s), 0, stringLiteral s⟩ := by
  have htext : (stringLiteral s ++ after).toList =
      '"' :: (escaped s.toList ++ '"' :: after.toList) := by
    simp [stringLiteral]
  have hliteral : String.ofList ('"' :: (escaped s.toList ++ ['"'])) = stringLiteral s := by
    rw [← String.toList_inj]
    simp [stringLiteral]
  have hmunch : munch '"' (escaped s.toList ++ '"' :: after.toList) =
      ⟨.lexeme (.string s), '"' :: (escaped s.toList ++ ['"']), after.toList⟩ := by
    simp [munch_quote, munchString, readString_escaped]
  rw [scan, htext, scanFrom, hmunch]
  dsimp only
  rw [hliteral, Nat.zero_add]

/-- **The extent of a string.**  Behind an opening quote, either there is a quote with an even
number of backslashes directly before it, and the string ends with the first of these, or there is
none, and all that follows is a string that is not closed.  And every string can be written: a scan
of its literal, whatever comes behind it, reads exactly the string and goes on behind the closing
quote. -/
theorem string_literal_extent :
    (∀ rest : List Char,
      (∃ front value after, FirstClosesAfter rest front ∧ rest = front ++ '"' :: after ∧
        readString rest = some ⟨front ++ ['"'], value, after⟩ ∧
        munch '"' rest =
          ⟨.lexeme (.string (String.ofList value)), '"' :: (front ++ ['"']), after⟩) ∨
      (∀ front, ¬ ClosesAfter rest front) ∧ readString rest = none ∧
        munch '"' rest = ⟨.fault .unterminatedString, '"' :: rest, []⟩) ∧
    ∀ (s after : String) (collect : Bool),
      scan (stringLiteral s ++ after) collect =
        ((scanFrom collect (stringLiteral s).utf8ByteSize after.toList).withLexeme
          ⟨.string s, 0⟩).withToken ⟨.lexeme (.string s), 0, stringLiteral s⟩ := by
  refine ⟨fun rest => ?_, scan_stringLiteral⟩
  cases hread : readString rest with
  | none =>
    exact .inr ⟨not_closesAfter_of_readString hread, rfl, by rw [munch_quote, munchString, hread]⟩
  | some body =>
    obtain ⟨front, htext, hfirst⟩ := firstClosesAfter_of_readString hread
    have hsplit := readString_text hread
    rw [htext, List.append_assoc] at hsplit
    exact .inl ⟨front, body.value, body.rest, hfirst, hsplit.symm, by rw [← htext],
      by simp only [munch_quote, munchString, hread, htext]⟩

/-- The quote behind two backslashes ends a string, the one behind three of them does not. -/
example : readString "é\\\\\\\"\\\\\" b".toList =
    some ⟨"é\\\\\\\"\\\\\"".toList, "é\\\"\\".toList, " b".toList⟩ := by
  decide

end Reckon
