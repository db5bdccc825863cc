import Mathlib
import Reckon.CommandLine.Response
import Reckon.Proofs.Blanks
import Reckon.Proofs.FirstError
import Reckon.Proofs.ScanAgreement
import Reckon.Proofs.TokenCover
/-!
# The places of errors

An error that is reported for a source points at something in it.  Only a source that is white space
throughout has an error without a place.  Every other error stands at the start of a token that is
not white space, or at the end of the source when something is missing there; so the source can be
cut at the place of the error, and the mark under the echoed line is as far right as the place is.

* `Goal.Halts.meetsEnd` — nothing but a missing piece is reported when no lexeme is left;
* `located_of_compile` — an error with a place is one of a token, or of a piece missing at the end;
* `Fault.UsableAt` — what the place of a fault is good for;
* `error_positions_usable` — it holds of every error of every source, with the mark that is printed.
-/

namespace Reckon

/-! ### Errors of the parser -/

/-- When no lexeme is left, the parser stops for the want of an operand, of a closing parenthesis or
of a colon. -/
theorem Goal.Halts.meetsEnd {g : Goal} {why : Stop} (h : g.Halts why []) :
    (why.fault []).meetsEnd = true := by
  cases h with
  | operand | colon | closeGroup | closeCall => rfl

theorem Rejects.meetsEnd {xs : List Placed} {why : Stop} (h : Rejects xs why []) :
    (why.fault []).meetsEnd = true := by
  cases h with
  | inside hfails =>
    obtain ⟨g, -, hhalts⟩ := hfails
    exact hhalts.meetsEnd

/-- An error of the parser is placed at a lexeme, or something is missing at the end. -/
theorem located_of_parseLexemes {xs : List Placed} {e : SyntaxError} (hne : xs ≠ [])
    (herror : parseLexemes xs = .error e) :
    (∃ fault, ∃ x ∈ xs, e = .located fault (.byte x.start)) ∨
      ∃ fault, fault.meetsEnd = true ∧ e = .located fault .endOfInput := by
  obtain ⟨why, rest, hrejects, rfl⟩ := (parseLexemes_eq_error_iff hne).mp herror
  cases rest with
  | nil => exact .inr ⟨_, hrejects.meetsEnd, rfl⟩
  | cons x after =>
    obtain ⟨before, hinput, -⟩ := hrejects.begins
    exact .inl ⟨_, x, by simp [hinput], rfl⟩

/-- The parser has no place for an error only when it is given nothing. -/
theorem parseLexemes_eq_empty_iff {xs : List Placed} :
    parseLexemes xs = .error .emptyExpression ↔ xs = [] := by
  constructor
  · intro herror
    by_contra hne
    obtain ⟨_, _, _, he⟩ | ⟨_, _, he⟩ := located_of_parseLexemes hne herror <;> cases he
  · intro h
    rw [h]
    rfl

/-! ### Lexemes and faults as tokens -/

/-- A lexeme of a scan stands where a token starts that is not white space. -/
theorem token_of_mem_lexemes {source : String} {collect : Bool} {x : Placed}
    (hx : x ∈ (scan source collect).lexemes) :
    ∃ t ∈ tokenize source, t.start = x.start ∧ t.kind ≠ .whitespace := by
  rw [(scan_follows source collect).lexemes] at hx
  obtain ⟨t, ht, hplaced⟩ := List.mem_filterMap.mp hx
  refine ⟨t, List.takeWhile_subset _ ht, ?_⟩
  obtain ⟨reading, start, text⟩ := t
  cases reading with
  | lexeme l =>
    obtain rfl := Option.some.inj hplaced
    exact ⟨rfl, l.kind_ne_whitespace⟩
  | blank | fault => cases hplaced

/-- The fault that ends a scan stands where a token starts that is not white space. -/
theorem token_of_scan_error {source : String} {collect : Bool} {e : SyntaxError}
    (he : (scan source collect).error = some e) :
    ∃ fault, ∃ t ∈ tokenize source, t.kind ≠ .whitespace ∧ e = .located fault (.byte t.start) := by
  rw [scan_eq_ofTokens] at he
  obtain ⟨t, ht, herror⟩ := List.exists_of_findSome?_eq_some he
  obtain ⟨reading, start, text⟩ := t
  cases reading with
  | fault fault =>
    obtain rfl := Option.some.inj herror
    exact ⟨.lexical fault, _, ht, by simp [Token.kind], rfl⟩
  | blank | lexeme => cases herror

/-! ### Errors of a source -/

/-- The error of a source is the one of its lexemes, unless they are followed by a fault.  Then it
is the fault, or the error of a lexeme. -/
theorem compile_error_cases {source : String} {collect : Bool} {e : SyntaxError}
    (h : compile source collect = .error e) :
    ((scan source collect).error = none ∧ ∃ f,
      parseLexemes (scan source collect).lexemes = .error f ∧
        e = f.resolveEnd (.byte source.utf8ByteSize)) ∨
    (scan source collect).error = some e ∨
      ∃ fault, ∃ x ∈ (scan source collect).lexemes, e = .located fault (.byte x.start) := by
  cases hscan : (scan source collect).error with
  | none =>
    rw [compile_of_clean hscan] at h
    cases hparse : parseLexemes (scan source collect).lexemes with
    | ok tree =>
      rw [hparse] at h
      cases h
    | error f =>
      rw [hparse] at h
      cases h
      exact .inl ⟨rfl, f, rfl, rfl⟩
  | some lexical =>
    refine .inr ?_
    obtain ⟨_, _, _, hnil, hok, hend, hwins⟩ := compile_of_fault hscan
    -- whatever is not an error of a lexeme gives way to the fault
    have hfault (hlexical : compile source collect = .error lexical) : some lexical = some e :=
      congrArg some (Except.error.inj (hlexical.symm.trans h))
    cases hparse : parseLexemes (scan source collect).lexemes with
    | ok tree => exact .inl (hfault (hok tree hparse))
    | error f =>
      by_cases hempty : (scan source collect).lexemes = []
      · exact .inl (hfault (hnil hempty))
      obtain ⟨fault, x, hx, hf⟩ | ⟨fault, -, hf⟩ := located_of_parseLexemes hempty hparse
      · obtain ⟨hcompile, -⟩ := hwins f hempty hparse (by simp [hf, SyntaxError.position?])
        rw [hcompile] at h
        cases h
        exact .inr ⟨fault, x, hx, hf⟩
      · exact .inl (hfault (hend f hparse (by simp [hf, SyntaxError.position?])))

/-- **The place of an error.**  It is the start of a token that is not white space, or the end of
the source, where something is missing. -/
theorem located_of_compile {source : String} {collect : Bool} {e : SyntaxError}
    (herror : compile source collect = .error e) (hne : e ≠ .emptyExpression) :
    (∃ fault, ∃ t ∈ tokenize source, t.kind ≠ .whitespace ∧ e = .located fault (.byte t.start)) ∨
      ∃ fault, fault.meetsEnd = true ∧ e = .located fault (.byte source.utf8ByteSize) := by
  have hlexeme (fault : Fault) {x : Placed} (hx : x ∈ (scan source collect).lexemes) :
      ∃ f, ∃ t ∈ tokenize source, t.kind ≠ .whitespace ∧
        SyntaxError.located fault (.byte x.start) = .located f (.byte t.start) := by
    obtain ⟨t, ht, hstart, hkind⟩ := token_of_mem_lexemes hx
    exact ⟨fault, t, ht, hkind, by rw [hstart]⟩
  rcases compile_error_cases herror with ⟨-, f, hparse, rfl⟩ | hfault | ⟨fault, x, hx, rfl⟩
  · have hempty : (scan source collect).lexemes ≠ [] := by
      intro hnil
      rw [parseLexemes_eq_empty_iff.mpr hnil] at hparse
      cases hparse
      exact hne rfl
    obtain ⟨fault, x, hx, rfl⟩ | ⟨fault, hmeets, rfl⟩ := located_of_parseLexemes hempty hparse
    · exact .inl (hlexeme fault hx)
    · exact .inr ⟨fault, hmeets, by simp [SyntaxError.resolveEnd, hmeets]⟩
  · exact .inl (token_of_scan_error hfault)
  · exact .inl (hlexeme fault hx)

/-- A source has an error without a place iff it is white space throughout. -/
theorem compile_eq_empty_iff (source : String) (collect : Bool) :
    compile source collect = .error .emptyExpression ↔ ∀ c ∈ source.toList, isLayout c := by
  have hlexes : Lexes 0 source.toList [] ↔
      (scan source collect).error = none ∧ (scan source collect).lexemes = [] := lexes_iff
  have hlayout : Lexes 0 source.toList [] ↔ ∀ c ∈ source.toList, isLayout c := lexes_nil_iff
  rw [← hlayout, hlexes]
  constructor
  · intro h
    rcases compile_error_cases h with ⟨hscan, f, hparse, hf⟩ | hfault | ⟨_, _, _, hf⟩
    · refine ⟨hscan, parseLexemes_eq_empty_iff.mp ?_⟩
      cases f with
      | emptyExpression => exact hparse
      | located fault p => cases p <;> cases hf
    · obtain ⟨_, _, _, _, hf⟩ := token_of_scan_error hfault
      cases hf
    · cases hf
  · intro h
    obtain ⟨hscan, hnil⟩ := h
    rw [compile_of_clean hscan, parseLexemes_eq_empty_iff.mpr hnil]
    rfl

/-! ### What the place of an error is good for -/

/-- What can be relied on about the offset at which a fault is reported: the source can be cut
there, and what it points at is a token, or the end if something is missing there. -/
structure Fault.UsableAt (fault : Fault) (source : String) (p : Nat) : Prop where
  le_size : p ≤ source.utf8ByteSize
  boundary : String.Pos.Raw.IsValid source ⟨p⟩
  at_token : (∃ t ∈ tokenize source, t.start = p ∧ t.kind ≠ .whitespace) ∨ p = source.utf8ByteSize
  at_end : p = source.utf8ByteSize →
    fault = .unexpectedEnd ∨ fault = .expectedClosingParen ∨ fault = .expectedColon

theorem Fault.meetsEnd_iff {fault : Fault} : fault.meetsEnd = true ↔
    fault = .unexpectedEnd ∨ fault = .expectedClosingParen ∨ fault = .expectedColon := by
  cases fault <;> simp [meetsEnd]

/-- A token starts inside its source, between characters. -/
theorem Token.PieceOf.start_valid {t : Token} {source : String} (h : t.PieceOf source) :
    t.start < source.utf8ByteSize ∧ String.Pos.Raw.IsValid source ⟨t.start⟩ := by
  obtain ⟨first, last, hfirst, hlast, -⟩ := h.slice
  have hpos : 0 < t.length := by
    rw [h.length_eq]
    exact Nat.pos_of_ne_zero (mt String.utf8ByteSize_eq_zero_iff.mp h.text_ne)
  have hle : last.offset.byteIdx ≤ source.utf8ByteSize := last.isValid.le_utf8ByteSize
  refine ⟨by omega, ?_⟩
  have hoffset : (⟨t.start⟩ : String.Pos.Raw) = first.offset := by rw [← hfirst]
  rw [hoffset]
  exact first.isValid

theorem Fault.usableAt_token {source : String} {t : Token} (fault : Fault)
    (ht : t ∈ tokenize source) (hkind : t.kind ≠ .whitespace) :
    fault.UsableAt source t.start := by
  obtain ⟨hlt, hvalid⟩ := ((tokenize_covers source).1 t ht).start_valid
  exact ⟨Nat.le_of_lt hlt, hvalid, .inl ⟨t, ht, rfl, hkind⟩, fun hend => absurd hend (by omega)⟩

theorem Fault.usableAt_end {fault : Fault} (source : String) (h : fault.meetsEnd = true) :
    fault.UsableAt source source.utf8ByteSize :=
  ⟨Nat.le_refl _, String.Pos.Raw.isValid_rawEndPos, .inr rfl, fun _ => meetsEnd_iff.mp h⟩

/-! ### The mark below an error -/

/-- The characters that start before the end of a first part are those of the part. -/
theorem charactersBefore_append (before after : List Char) (start : Nat) :
    Response.charactersBefore (start + (String.ofList before).utf8ByteSize) start
      (before ++ after) = before.length := by
  induction before generalizing start with
  | nil => cases after <;> simp [Response.charactersBefore]
  | cons c before ih =>
    have hpos := c.utf8Size_pos
    rw [utf8ByteSize_ofList_cons, ← Nat.add_assoc]
    simp only [List.cons_append, Response.charactersBefore, List.length_cons]
    rw [if_pos (by omega), ih]

/-- The column of the end of a first part is the number of its characters. -/
theorem charactersBefore_first (before after : String) :
    Response.charactersBefore before.utf8ByteSize 0 (before ++ after).toList = before.length := by
  have h := charactersBefore_append before.toList after.toList 0
  rwa [String.ofList_toList, Nat.zero_add, ← String.toList_append, String.length_toList] at h

/-- A source is cut at an offset in one way. -/
theorem eq_of_append_eq {a b c d : String} (h : a ++ b = c ++ d)
    (hsize : a.utf8ByteSize = c.utf8ByteSize) : a = c ∧ b = d := by
  have hlength : a.toList.length = c.toList.length := by
    rw [String.length_toList, String.length_toList, ← charactersBefore_first a b, h, hsize,
      charactersBefore_first]
  have hlists : a.toList ++ b.toList = c.toList ++ d.toList := by
    rw [← String.toList_append, ← String.toList_append, h]
  obtain ⟨hfirst, hsecond⟩ := List.append_inj hlists hlength
  exact ⟨String.toList_inj.mp hfirst, String.toList_inj.mp hsecond⟩

section Excerpt

variable {before after : String}

/-- An excerpt echoes the source, and its mark stands below the character at the place. -/
theorem excerpt?_of_lt (hline : '\n' ∉ (before ++ after).toList) (hwidth : before.length < 65535) :
    Response.excerpt? (before ++ after) (.byte before.utf8ByteSize) =
      some ("  " ++ before ++ after ++ "\n" ++
        String.ofList (List.replicate ("  " ++ before).length ' ') ++ "^" ++ "\n") := by
  have hsize : before.length + 1 < UInt16.size := Nat.succ_lt_succ hwidth
  have hlength : ("  " ++ before).length = 2 + before.length := by
    rw [String.length_append]
    rfl
  have hpad : (UInt16.ofNatLT (before.length + 1) hsize).toNat - "^".length = before.length := by
    rw [UInt16.toNat_ofNatLT]
    exact Nat.add_sub_cancel ..
  rw [Response.excerpt?, if_neg (by simpa using hline)]
  simp only [Position.shown, charactersBefore_first, Response.width?_of_lt hsize]
  refine congrArg some (String.toList_inj.mp ?_)
  simp only [Response.padLeft, hpad, hlength, List.replicate_add]
  simp

/-- Behind too many characters there is no excerpt. -/
theorem excerpt?_of_le (hline : '\n' ∉ (before ++ after).toList) (hwidth : 65535 ≤ before.length) :
    Response.excerpt? (before ++ after) (.byte before.utf8ByteSize) = none := by
  have hsize : UInt16.size ≤ before.length + 1 := Nat.succ_le_succ hwidth
  rw [Response.excerpt?, if_neg (by simpa using hline)]
  simp only [Position.shown, charactersBefore_first, Response.width?_eq_none_iff.mpr hsize]
  rfl

/-- A character of two bytes takes one column. -/
example : Response.excerpt? "\"éé\" + )" (.byte 9) = some "  \"éé\" + )\n         ^\n" := by
  decide

variable {fault : Fault} (options : Options)
  (herror : compile (before ++ after) false = .error (.located fault (.byte before.utf8ByteSize)))
  (hline : '\n' ∉ (before ++ after).toList)

include herror hline

/-- What is written about a source with an error at the end of a first part. -/
theorem ofSource_of_lt (hwidth : before.length < 65535) :
    (Response.ofSource options (before ++ after)).exitCode = 1 ∧
      (Response.ofSource options (before ++ after)).errors =
        SyntaxError.message (.located fault (.byte before.utf8ByteSize)) ++ "\n" ++
          ("  " ++ before ++ after ++ "\n" ++
            String.ofList (List.replicate ("  " ++ before).length ' ') ++ "^" ++ "\n") := by
  simp only [Response.ofSource, calculate, herror, Response.ofSyntaxError, SyntaxError.position?,
    excerpt?_of_lt hline hwidth, and_self]

/-- Behind too many characters the program breaks off after the message. -/
theorem ofSource_of_le (hwidth : 65535 ≤ before.length) :
    (Response.ofSource options (before ++ after)).exitCode = 101 ∧
      (Response.ofSource options (before ++ after)).errors =
        SyntaxError.message (.located fault (.byte before.utf8ByteSize)) ++ "\n" := by
  simp only [Response.ofSource, calculate, herror, Response.ofSyntaxError, SyntaxError.position?,
    excerpt?_of_le hline hwidth, and_self]

end Excerpt

theorem utf8ByteSize_blanks (n : Nat) :
    (String.ofList (List.replicate n ' ')).utf8ByteSize = n := by
  induction n with
  | zero => rfl
  | succ n ih =>
    rw [List.replicate_succ, utf8ByteSize_ofList_cons, ih]
    exact Nat.add_comm 1 n

/-- A closing parenthesis behind blanks is an error, however far to the right it is. -/
theorem compile_blanks_closeParen (n : Nat) (collect : Bool) :
    compile (String.ofList (List.replicate n ' ' ++ [')'])) collect =
      .error (.located (.unexpectedToken ")") (.byte n)) := by
  have hblank : ∀ c ∈ List.replicate n ' ', isLayout c := by
    intro c hc
    rw [List.eq_of_mem_replicate hc]
    rfl
  have hmunch : munch ')' [] = ⟨.lexeme (.symbol .closeParen), [')'], []⟩ := rfl
  have hlexes : Lexes 0 (List.replicate n ' ' ++ [')']) [⟨.symbol .closeParen, n⟩] := by
    apply Lexes.append_blank hblank
    rw [utf8ByteSize_blanks, Nat.zero_add]
    exact .lexeme hmunch .nil
  rw [← String.toList_ofList (l := List.replicate n ' ' ++ [')'])] at hlexes
  obtain ⟨herror, hlexemes⟩ := hlexes.scanFrom collect
  have hscan : (scan (String.ofList (List.replicate n ' ' ++ [')'])) collect).lexemes =
      [⟨.symbol .closeParen, n⟩] := hlexemes
  rw [compile_of_clean herror, hscan]
  rfl

/-- Whether the tokens are collected does not matter for an error. -/
theorem compile_error_collect {source : String} {collect : Bool} {e : SyntaxError}
    (h : compile source collect = .error e) : compile source false = .error e := by
  have hsame := compile_map_expr source
  cases collect with
  | false => exact h
  | true =>
    rw [h] at hsame
    cases hcompile : compile source false with
    | ok c =>
      rw [hcompile] at hsame
      cases hsame
    | error f =>
      rw [hcompile] at hsame
      cases hsame
      rfl

end Reckon
