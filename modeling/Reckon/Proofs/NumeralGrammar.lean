import Mathlib.Data.List.Forall2
import Reckon.Failure
import Reckon.Proofs.FixedNumerals
import Reckon.Proofs.OperatorFailures
import Reckon.Proofs.TokenCover
import Reckon.Proofs.TrimmedText
import Reckon.Proofs.WellFormedTrees
/-!
# The grammar of numerals

    numeral  := sign? ( word | run exponent? )
    word     := "inf" | "infinity" | "nan", in letters of either case
    run      := digits and points, at least one digit and at most one point
    exponent := ( "e" | "E" ) sign? digit+
    sign     := "+" | "-"

A text is read as a number iff all of it is a numeral, white space at its ends apart, so that there
is no reading of a part.  The reader goes from the front to the back and takes each part as long as
it can be.  It misses no numeral in that way, since no part of a numeral starts with a character
that could go on with the part before it.

* `IsNumeral` — the grammar;
* `Numeral.decimal?_append` — digits, a point and an exponent are cut where the run of them ends;
* `Numeral.read?_isSome_iff` — what is read is the grammar;
* `numerals_read_whole` — texts, strings as numbers, and tokens.
-/

namespace Reckon

/-! ### The grammar -/

/-- A sign, or none. -/
def IsSign (cs : List Char) : Prop := cs = [] ∨ cs = ['+'] ∨ cs = ['-']

/-- The letters of the word, each in either case. -/
def SpellsWord (word : String) (cs : List Char) : Prop :=
  List.Forall₂ (fun w c => c = w ∨ c = w.toUpper) word.toList cs

/-- The words that are numerals. -/
def numeralWords : List String := ["inf", "infinity", "nan"]

/-- The exponent of a numeral, or none. -/
inductive IsExponent : List Char → Prop
  | absent : IsExponent []
  | present {e : Char} {sign digits : List Char} (he : e = 'e' ∨ e = 'E') (hsign : IsSign sign)
      (hne : digits ≠ []) (hdigits : ∀ c ∈ digits, c.isDigit) : IsExponent (e :: (sign ++ digits))

/-- A numeral without its sign. -/
inductive IsMagnitude : List Char → Prop
  | word {w : String} {cs : List Char} (hw : w ∈ numeralWords) (hspells : SpellsWord w cs) :
      IsMagnitude cs
  | decimal {run exponent : List Char} (hrun : ∀ c ∈ run, isNumeric c)
      (hdecimal : IsDecimalRun run) (hexponent : IsExponent exponent) :
      IsMagnitude (run ++ exponent)

/-- A numeral: a sign or none, and a word or a decimal. -/
def IsNumeral (cs : List Char) : Prop :=
  ∃ sign magnitude, cs = sign ++ magnitude ∧ IsSign sign ∧ IsMagnitude magnitude

namespace Numeral

/-! ### Signs -/

/-- A sign taken off the front is one. -/
theorem exists_sign (cs : List Char) : ∃ sign, IsSign sign ∧ cs = sign ++ (splitSign cs).2 := by
  unfold splitSign
  split
  · exact ⟨['-'], .inr (.inr rfl), rfl⟩
  · exact ⟨['+'], .inr (.inl rfl), rfl⟩
  · exact ⟨[], .inl rfl, rfl⟩

/-- A sign is taken off the front of what starts with none. -/
theorem splitSign_append {sign rest : List Char} (hsign : IsSign sign)
    (hrest : ∀ c ∈ rest.head?, c ≠ '+' ∧ c ≠ '-') : (splitSign (sign ++ rest)).2 = rest := by
  rcases hsign with rfl | rfl | rfl
  · rw [List.nil_append, splitSign_of_ne hrest]
  · rfl
  · rfl

theorem isNumeric_of_isDigit {c : Char} (h : c.isDigit) : isNumeric c := by
  simp [isNumeric, h]

/-! ### Exponents -/

theorem exponent?_isSome_iff {cs : List Char} : (exponent? cs).isSome ↔ IsExponent cs := by
  constructor
  · intro h
    cases cs with
    | nil => exact .absent
    | cons e cs =>
      obtain ⟨sign, hsign, hcs⟩ := exists_sign cs
      simp only [exponent?] at h
      split at h
      · next he =>
        split at h
        · next hdigits =>
          rw [hcs]
          exact .present he hsign hdigits.1 (List.all_eq_true.mp hdigits.2)
        · cases h
      · cases h
  · intro h
    cases h with
    | absent => rfl
    | @present e sign digits he hsign hne hdigits =>
      have hrest : ∀ c ∈ digits.head?, c ≠ '+' ∧ c ≠ '-' := fun c hc =>
        ne_sign_of_isNumeric (isNumeric_of_isDigit (hdigits c (List.mem_of_mem_head? hc)))
      have hall : digits.all Char.isDigit := List.all_eq_true.mpr hdigits
      simp only [exponent?, splitSign_append hsign hrest]
      rw [if_pos he, if_pos ⟨hne, hall⟩]
      rfl

/-- An exponent does not go on with digits and points. -/
theorem not_isNumeric_of_isExponent {cs : List Char} (h : IsExponent cs) :
    ∀ c ∈ cs.head?, ¬ isNumeric c := by
  cases h with
  | absent => simp
  | present he =>
    intro c hc
    obtain rfl := Option.some.inj hc
    rcases he with rfl | rfl <;> decide

/-! ### Decimals -/

/-- A decimal has a digit before its point or behind it, and then the exponent. -/
theorem decimal?_isSome_of_split {cs whole behind fraction rest : List Char}
    (hwhole : splitDigits cs = (whole, behind))
    (hfraction : splitFraction behind = (fraction, rest)) :
    (decimal? cs).isSome ↔ ¬ (whole = [] ∧ fraction = []) ∧ (exponent? rest).isSome := by
  simp only [decimal?, hwhole, hfraction]
  split <;> simp [*]

/-- **A decimal is cut where its run ends:** what follows digits and points without going on with
them has to be the exponent. -/
theorem decimal?_append {run rest : List Char} (hrun : ∀ c ∈ run, isNumeric c)
    (hrest : ∀ c ∈ rest.head?, ¬ isNumeric c) :
    (decimal? (run ++ rest)).isSome ↔ (decimal? run).isSome ∧ (exponent? rest).isSome := by
  have hdigit : ∀ c ∈ rest.head?, ¬ c.isDigit :=
    fun c hc h => hrest c hc (isNumeric_of_isDigit h)
  have hnopoint : splitFraction rest = ([], rest) := by
    unfold splitFraction
    split
    · exact absurd rfl (hrest '.' rfl)
    · rfl
  have hnoexponent : (exponent? []).isSome := rfl
  obtain ⟨whole, hwhole, hpoint | ⟨tail, hpoint⟩⟩ := exists_digits_of_numeric hrun
  · -- no point
    rw [hpoint, decimal?_isSome_of_split (splitDigits_append hwhole hdigit) hnopoint,
      decimal?_isSome_of_split (splitDigits_digits hwhole) rfl, and_iff_left hnoexponent]
  rw [hpoint, List.append_assoc, List.cons_append]
  have htail : ∀ c ∈ tail, isNumeric c := fun c hc => hrun c (by simp [hpoint, hc])
  obtain ⟨fraction, hfraction, hsecond | ⟨more, hsecond⟩⟩ := exists_digits_of_numeric htail
  · -- one point
    rw [hsecond,
      decimal?_isSome_of_split (splitDigits_point hwhole _) (splitDigits_append hfraction hdigit),
      decimal?_isSome_of_split (splitDigits_point hwhole _) (splitDigits_digits hfraction),
      and_iff_left hnoexponent]
  · -- the second point would have to start the exponent
    have hpoints (cs : List Char) : ¬ (exponent? ('.' :: cs)).isSome := by simp [exponent?]
    rw [hsecond, List.append_assoc, List.cons_append,
      decimal?_isSome_of_split (splitDigits_point hwhole _) (splitDigits_point hfraction _),
      decimal?_isSome_of_split (splitDigits_point hwhole _) (splitDigits_point hfraction _)]
    simp [hpoints]

/-! ### Words -/

theorem toNat_toLower (c : Char) :
    c.toLower.toNat = if 65 ≤ c.toNat ∧ c.toNat ≤ 90 then c.toNat + 32 else c.toNat := by
  have hupper : (c.val ≥ 'A'.val ∧ c.val ≤ 'Z'.val) ↔ 65 ≤ c.toNat ∧ c.toNat ≤ 90 := Iff.rfl
  simp only [Char.toLower, hupper]
  split
  · have hshift : ('a'.val - 'A'.val).toNat = 32 := rfl
    rw [Char.toNat, UInt32.toNat_add, hshift, ← Char.toNat]
    omega
  · rfl

theorem toNat_toUpper {c : Char} (h : 97 ≤ c.toNat ∧ c.toNat ≤ 122) :
    c.toUpper.toNat + 32 = c.toNat := by
  have hlower : 'a'.val ≤ c.val ∧ c.val ≤ 'z'.val := h
  have hshift : ('A'.val - 'a'.val).toNat = 2 ^ 32 - 32 := rfl
  rw [Char.toUpper, dif_pos hlower, Char.toNat, UInt32.toNat_add, hshift, ← Char.toNat]
  omega

/-- A letter in either case. -/
theorem toLower_eq_iff {w c : Char} (h : 97 ≤ w.toNat ∧ w.toNat ≤ 122) :
    c.toLower = w ↔ c = w ∨ c = w.toUpper := by
  have hupper := toNat_toUpper h
  simp only [← Char.toNat_inj, toNat_toLower]
  split <;> omega

theorem map_toLower_eq_iff {ws : List Char} (h : ∀ w ∈ ws, 97 ≤ w.toNat ∧ w.toNat ≤ 122)
    (cs : List Char) :
    cs.map Char.toLower = ws ↔ List.Forall₂ (fun w c => c = w ∨ c = w.toUpper) ws cs := by
  induction ws generalizing cs with
  | nil => simp
  | cons w ws ih =>
    obtain ⟨hw, hws⟩ := List.forall_mem_cons.mp h
    cases cs with
    | nil => simp
    | cons c cs => simp [toLower_eq_iff hw, ih hws cs]

theorem letters_of_mem_numeralWords {word : String} (h : word ∈ numeralWords) :
    ∀ w ∈ word.toList, 97 ≤ w.toNat ∧ w.toNat ≤ 122 := by
  simp only [numeralWords, List.mem_cons, List.not_mem_nil, or_false] at h
  rcases h with rfl | rfl | rfl <;> simp

/-- A text spells a word iff it is the word when it is put into small letters. -/
theorem spellsWord_iff {word : String} (h : word ∈ numeralWords) {cs : List Char} :
    SpellsWord word cs ↔ String.ofList (cs.map Char.toLower) = word := by
  rw [← String.toList_inj, String.toList_ofList,
    map_toLower_eq_iff (letters_of_mem_numeralWords h), SpellsWord]

/-! ### Numerals -/

/-- A numeral without its sign starts with none. -/
theorem head_of_isMagnitude {cs : List Char} (h : IsMagnitude cs) :
    ∀ c ∈ cs.head?, c ≠ '+' ∧ c ≠ '-' := by
  intro c hc
  cases h with
  | @word w cs hw hspells =>
    have hmem : c.toLower ∈ w.toList := by
      rw [← (spellsWord_iff hw).mp hspells, String.toList_ofList]
      exact List.mem_map_of_mem (List.mem_of_mem_head? hc)
    have hletter := (letters_of_mem_numeralWords hw _ hmem).1
    constructor
    · intro hsign
      subst hsign
      exact absurd hletter (by decide)
    · intro hsign
      subst hsign
      exact absurd hletter (by decide)
  | @decimal run exponent hrun hdecimal hexponent =>
    obtain ⟨⟨d, hd, -⟩, -⟩ := hdecimal
    rw [List.head?_append_of_ne_nil _ (List.ne_nil_of_mem hd)] at hc
    exact ne_sign_of_isNumeric (hrun c (List.mem_of_mem_head? hc))

theorem unsigned?_isSome_iff_word_or_decimal {cs : List Char} :
    (unsigned? cs).isSome ↔
      String.ofList (cs.map Char.toLower) ∈ numeralWords ∨ (decimal? cs).isSome := by
  simp only [unsigned?, numeralWords, List.mem_cons, List.not_mem_nil, or_false]
  split_ifs with hinfinite hnan
  · simp [or_assoc.symm, hinfinite]
  · simp [hnan]
  · simp [hinfinite, hnan]

/-- What is read as a numeral without a sign is one. -/
theorem unsigned?_isSome_iff {cs : List Char} : (unsigned? cs).isSome ↔ IsMagnitude cs := by
  rw [unsigned?_isSome_iff_word_or_decimal]
  constructor
  · intro h
    rcases h with hword | hdecimal
    · exact .word hword ((spellsWord_iff hword).mpr rfl)
    · have hrun : ∀ c ∈ cs.takeWhile isNumeric, isNumeric c := fun c hc => List.mem_takeWhile_imp hc
      have hsplit : cs.takeWhile isNumeric ++ cs.dropWhile isNumeric = cs :=
        List.takeWhile_append_dropWhile
      rw [← hsplit, decimal?_append hrun not_of_mem_head?_dropWhile,
        decimal?_isSome_iff hrun, exponent?_isSome_iff] at hdecimal
      rw [← hsplit]
      exact .decimal hrun hdecimal.1 hdecimal.2
  · intro h
    cases h with
    | word hw hspells => exact .inl ((spellsWord_iff hw).mp hspells ▸ hw)
    | decimal hrun hdecimal hexponent =>
      rw [decimal?_append hrun (not_isNumeric_of_isExponent hexponent), decimal?_isSome_iff hrun,
        exponent?_isSome_iff]
      exact .inr ⟨hdecimal, hexponent⟩

/-- **What is read as a number is a numeral.** -/
theorem read?_isSome_iff {cs : List Char} : (read? cs).isSome ↔ IsNumeral cs := by
  simp only [read?, Option.isSome_map, unsigned?_isSome_iff]
  constructor
  · intro h
    obtain ⟨sign, hsign, hcs⟩ := exists_sign cs
    exact ⟨sign, _, hcs, hsign, h⟩
  · intro h
    obtain ⟨sign, magnitude, rfl, hsign, hmagnitude⟩ := h
    rwa [splitSign_append hsign (head_of_isMagnitude hmagnitude)]

instance (cs : List Char) : Decidable (IsNumeral cs) := decidable_of_iff _ read?_isSome_iff

/-- A part of each of these is a numeral, or begins like one. -/
example :
    ∀ text ∈ ["", ".", "-", "+-1", "1e", "1e+", ".e5", "1.2.3", "1 2", "1m", "infinit", "nano"],
      ¬ IsNumeral text.toList := by
  decide

/-- **A text is read as a number iff its body is a numeral.** -/
theorem readTrimmed?_isSome_iff {text : String} :
    (readTrimmed? text).isSome ↔ ∃ body, Text.Body text.toList body ∧ IsNumeral body := by
  rw [readTrimmed?, read?_isSome_iff]
  constructor
  · intro h
    exact ⟨_, Text.body_trim _, h⟩
  · intro h
    obtain ⟨body, hbody, h⟩ := h
    rwa [Text.trim_eq_iff.mpr hbody]

/-- White space around a text does not change what it is read as. -/
theorem readTrimmed?_padded {before after : String}
    (h : ∀ c ∈ before.toList ++ after.toList, Text.isBlank c) (text : String) :
    readTrimmed? (before ++ text ++ after) = readTrimmed? text := by
  rw [readTrimmed?, String.toList_append, String.toList_append, Text.trim_padded h, readTrimmed?]

end Numeral

/-! ### Strings as numbers -/

/-- A value that is no number is of the wrong type. -/
theorem Value.NoNumber.kind {v : Value} {e : EvalError} (h : v.NoNumber e) : e.kind = .type := by
  cases h <;> rfl

/-- **A string is no number** iff it is not read as one. -/
theorem Value.toNumber_string_fails_iff {s : String} :
    (∃ e, (string s).toNumber = .error e) ↔ Numeral.readTrimmed? s = none := by
  cases hread : Numeral.readTrimmed? s with
  | some x => simp [toNumber_string_eq_ok_iff.mpr hread]
  | none =>
    cases hnumber : (string s).toNumber with
    | error e => simp
    | ok x =>
      rw [toNumber_string_eq_ok_iff.mp hnumber] at hread
      cases hread

/-! ### Tokens -/

/-- The text of a token is read as a number.  It is the lexeme where the token starts, in every scan
of the source that comes so far. -/
structure Token.ReadAs (t : Token) (source : String) (x : Number) : Prop where
  read : Numeral.readTrimmed? t.text = some x
  scanned : ∀ collect, ∀ p ∈ (scan source collect).lexemes, p.start = t.start → p.lexeme = .number x
  reached : ∀ collect, (∀ u ∈ tokenize source, u.isFault → t.start < u.start) →
    ⟨.number x, t.start⟩ ∈ (scan source collect).lexemes

/-- A token of the class of numbers is read as one. -/
theorem Token.reading_of_kind {t : Token} (h : t.kind = .number) :
    ∃ x, t.reading = .lexeme (.number x) := by
  obtain ⟨reading, start, text⟩ := t
  cases reading with
  | blank => cases h
  | fault => cases h
  | lexeme l =>
    cases l with
    | number x => exact ⟨x, rfl⟩
    | symbol s => cases s <;> cases h
    | _ => cases h

section Tokens

variable {source : String} {t : Token} {x : Number}

/-- The text of the token of a number is read as the number. -/
theorem readTrimmed?_text (ht : t ∈ tokenize source) (hx : t.reading = .lexeme (.number x)) :
    Numeral.readTrimmed? t.text = some x := by
  obtain ⟨front, c, back, -, rfl⟩ := munch_of_mem_tokenize ht
  obtain ⟨hc, hread⟩ | ⟨-, hword⟩ | ⟨s, hs⟩ | ⟨s, hs⟩ := munch_lexeme_cases hx
  · have hrun : ∀ d ∈ c :: back.takeWhile isNumeric, isNumeric d :=
      List.forall_mem_cons.mpr ⟨hc, fun d hd => List.mem_takeWhile_imp hd⟩
    rw [munch_of_isNumeric hc, munchRun, Numeral.readTrimmed?, String.toList_ofList,
      Text.trim_eq_self fun d hd => not_isBlank_of_isNumeric (hrun d hd)]
    unfold readNumber at hread
    split at hread
    · next y hy =>
      cases hread
      exact hy
    · cases hread
  · exact absurd hword readWord_ne_number
  · cases hs
  · cases hs

/-- Of tokens that start one behind the other, those before all faults are before the first one. -/
theorem mem_beforeFault {tokens : List Token} (h : tokens.Pairwise (·.start < ·.start))
    (ht : t ∈ tokens) (hfault : ∀ u ∈ tokens, u.isFault → t.start < u.start) :
    t ∈ Token.beforeFault tokens := by
  induction tokens with
  | nil => exact ht
  | cons u tokens ih =>
    obtain ⟨hafter, hrest⟩ := List.pairwise_cons.mp h
    obtain ⟨hfirst, hfaults⟩ := List.forall_mem_cons.mp hfault
    have hsound : ¬ u.isFault := by
      intro hu
      have hlt := hfirst hu
      rcases List.mem_cons.mp ht with rfl | ht
      · exact absurd hlt (Nat.lt_irrefl _)
      · exact absurd hlt (Nat.lt_asymm (hafter t ht))
    rw [Token.beforeFault, List.takeWhile_cons_of_pos (by simpa using hsound)]
    rcases List.mem_cons.mp ht with rfl | ht
    · exact List.mem_cons_self
    · exact List.mem_cons_of_mem u (ih hrest ht hfaults)

/-- Only one token starts at a place. -/
theorem eq_of_start_eq {u : Token} (hu : u ∈ tokenize source) (ht : t ∈ tokenize source)
    (h : u.start = t.start) : u = t := by
  have hnodup : ((tokenize source).map Token.start).Nodup :=
    List.pairwise_map.mpr ((tokenize_increasing source).imp Nat.ne_of_lt)
  exact List.inj_on_of_nodup_map hnodup hu ht h

theorem readAs_of_mem_tokenize (ht : t ∈ tokenize source) (hx : t.reading = .lexeme (.number x)) :
    t.ReadAs source x := by
  refine ⟨readTrimmed?_text ht hx, fun collect p hp hstart => ?_, fun collect hfault => ?_⟩
  · rw [(scan_follows source collect).lexemes] at hp
    obtain ⟨u, hu, hplaced⟩ := List.mem_filterMap.mp hp
    have hmem := (List.takeWhile_sublist _).subset hu
    obtain ⟨hreading, hplace⟩ := Token.placed?_eq_some_iff.mp hplaced
    have heq : u = t := eq_of_start_eq hmem ht (hplace ▸ hstart)
    rw [heq, hx] at hreading
    exact (Reading.lexeme.inj hreading).symm
  · rw [(scan_follows source collect).lexemes]
    refine List.mem_filterMap.mpr ⟨t, mem_beforeFault (tokenize_increasing source) ht hfault, ?_⟩
    exact Token.placed?_eq_some_iff.mpr ⟨hx, rfl⟩

end Tokens

/-! ### All of it -/

/-- **No part of a text is read as a number.**  A text is read as a number iff all of it is a
numeral, white space at its ends apart, and more white space there changes nothing.  A string is a
number iff it is read as one, and otherwise of the wrong type.  The text of every token of the class
of numbers is read as the number that the token is. -/
theorem numerals_read_whole :
    (∀ text, (Numeral.readTrimmed? text).isSome ↔
        ∃ body, Text.Body text.toList body ∧ IsNumeral body) ∧
      (∀ before text after : String, (∀ c ∈ before.toList ++ after.toList, Text.isBlank c) →
        Numeral.readTrimmed? (before ++ text ++ after) = Numeral.readTrimmed? text) ∧
      (∀ s, ((∃ e, (Value.string s).toNumber = .error e) ↔ Numeral.readTrimmed? s = none) ∧
        ∀ e, (Value.string s).toNumber = .error e → e.kind = .type) ∧
      ∀ source, ∀ t ∈ tokenize source, t.kind = .number →
        ∃ x, t.reading = .lexeme (.number x) ∧ t.ReadAs source x := by
  refine ⟨fun _ => Numeral.readTrimmed?_isSome_iff,
    fun _ text _ hblank => Numeral.readTrimmed?_padded hblank text,
    fun s => ⟨Value.toNumber_string_fails_iff, fun e he => ?strings⟩,
    fun source t ht hkind => ?tokens⟩
  case strings => exact (Value.toNumber_eq_error_iff.mp he).kind
  case tokens =>
    obtain ⟨x, hx⟩ := Token.reading_of_kind hkind
    exact ⟨x, hx, readAs_of_mem_tokenize ht hx⟩

/-- The number before a fault is a lexeme of the scan.  An ideographic space is white space around a
numeral, although it is none between lexemes. -/
theorem padded_infinity_and_number_before_fault :
    let x := Number.ofPattern false 0x4004000000000000
    let t : Token := ⟨.lexeme (.number x), 2, "2.50"⟩
    ((∀ c ∈ "\u3000".toList ++ "\n".toList, Text.isBlank c) ∧
        Numeral.readTrimmed? ("\u3000" ++ "-iNF" ++ "\n") = Numeral.readTrimmed? "-iNF" ∧
        (Numeral.readTrimmed? "-iNF").isSome) ∧
      ((Value.string "1e+").toNumber = .error (.notNumeral "1e+") ∧
        (EvalError.notNumeral "1e+").kind = .type) ∧
      t ∈ tokenize "- 2.50 #" ∧ t.kind = .number ∧ Numeral.readTrimmed? "2.50" = some x ∧
        ⟨.number x, 2⟩ ∈ (scan "- 2.50 #" true).lexemes := by
  intro x t
  obtain ⟨-, hpadded, hstrings, htokens⟩ := numerals_read_whole
  have hblank : ∀ c ∈ "\u3000".toList ++ "\n".toList, Text.isBlank c := by
    simp [Text.isBlank, Text.blankRanges]
  have herror : (Value.string "1e+").toNumber = .error (.notNumeral "1e+") :=
    Value.toNumber_eq_error_iff.mpr (.malformed (by decide) (by decide))
  have hmem : t ∈ tokenize "- 2.50 #" := by decide +kernel
  have hfaults : ∀ u ∈ tokenize "- 2.50 #", u.isFault → t.start < u.start := by decide +kernel
  obtain ⟨y, hy, hread⟩ := htokens "- 2.50 #" t hmem rfl
  cases hy
  exact ⟨⟨hblank, hpadded "\u3000" "-iNF" "\n" hblank, by decide +kernel⟩,
    ⟨herror, (hstrings "1e+").2 _ herror⟩, hmem, rfl, hread.read, hread.reached true hfaults⟩

end Reckon
