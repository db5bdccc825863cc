import Mathlib
import Reckon.Compiled
import Reckon.Proofs.ScanOrder
import Reckon.Proofs.Truncation
/-!
# The first error of a source

A source whose scan ends at a fault never compiles.  The lexemes before the fault are parsed all the
same: when they are wrong by themselves, their error is reported, and otherwise the fault is.  An
error of the end of the lexemes does not count, since the end is not the one of the source.  By
`parseLexemes_append`, a syntax error that is reported is final: no lexemes could have followed.

* `compile_of_fault` — what is reported for a source with a fault;
* `syntax_error_before_fault_is_final` — with it, that a syntax error before a fault is final.
-/

namespace Reckon

/-- An error that is not one of the end is placed at a lexeme. -/
theorem position?_of_parseLexemes {xs : List Placed} {e : SyntaxError} (hne : xs ≠ [])
    (herror : parseLexemes xs = .error e) (hpos : e.position? ≠ some .endOfInput) :
    ∃ x ∈ xs, e.position? = some x.position := by
  obtain ⟨why, rest, hrejects, rfl⟩ := (parseLexemes_eq_error_iff hne).mp herror
  obtain ⟨before, hinput, _⟩ := hrejects.begins
  cases rest with
  | nil => exact absurd rfl hpos
  | cons x after => exact ⟨x, by simp [hinput], rfl⟩

/-- An error with a position of its own stays where it is. -/
theorem SyntaxError.resolveEnd_of_position? {e : SyntaxError} {place : Position}
    (hpos : e.position? ≠ some .endOfInput) : e.resolveEnd place = e := by
  cases e with
  | emptyExpression => rfl
  | located fault p =>
      cases p with
      | byte q => rfl
      | endOfInput => exact absurd rfl hpos

theorem SyntaxError.before_of_position? {e f : SyntaxError} {p q : Nat}
    (he : e.position? = some (.byte p)) (hf : f.position? = some (.byte q)) :
    e.before f = decide (p < q) := by
  unfold before
  rw [he, hf]
  rfl

/-- An error of the end is not placed before anything inside the source. -/
theorem SyntaxError.not_before_of_end {e : SyntaxError} {fault : Fault} {size p : Nat}
    (hpos : e.position? = some .endOfInput) (hle : p ≤ size) :
    (e.resolveEnd (.byte size)).before (.located fault (.byte p)) = false := by
  cases e with
  | emptyExpression => cases hpos
  | located f q =>
      obtain rfl := Option.some.inj hpos
      cases hmeets : f.meetsEnd <;>
        simp [resolveEnd, before, position?, Position.before, hmeets, hle]

section Fault

variable {source : String} {collect : Bool} {lexical : SyntaxError}

theorem compile_of_ok {e : Expr} (hscan : (scan source collect).error = some lexical)
    (hparse : parseLexemes (scan source collect).lexemes = .ok e) :
    compile source collect = .error lexical := by
  simp only [compile, hparse, hscan]
  rfl

theorem compile_of_error {e : SyntaxError} (hscan : (scan source collect).error = some lexical)
    (hparse : parseLexemes (scan source collect).lexemes = .error e) :
    compile source collect = .error
      (if (e.resolveEnd (.byte source.utf8ByteSize)).before lexical then
        e.resolveEnd (.byte source.utf8ByteSize)
      else lexical) := by
  simp only [compile, hparse, hscan]
  rfl

/-- **A source with a fault.**  The fault is reported when the lexemes before it are none, are an
expression, or are wrong only at their end.  Otherwise their error is reported, which is placed
before the fault. -/
theorem compile_of_fault (hscan : (scan source collect).error = some lexical) :
    ∃ fault p, lexical = .located (.lexical fault) (.byte p) ∧
      ((scan source collect).lexemes = [] → compile source collect = .error lexical) ∧
      (∀ e, parseLexemes (scan source collect).lexemes = .ok e →
        compile source collect = .error lexical) ∧
      (∀ e, parseLexemes (scan source collect).lexemes = .error e →
        e.position? = some .endOfInput → compile source collect = .error lexical) ∧
      (∀ e, (scan source collect).lexemes ≠ [] →
        parseLexemes (scan source collect).lexemes = .error e →
          e.position? ≠ some .endOfInput →
            compile source collect = .error e ∧ ∃ q, e.position? = some (.byte q) ∧ q < p) := by
  have hordered := scan_ordered source collect
  obtain ⟨fault, p, rfl, _, hstop, hbefore⟩ := hordered.fault_after lexical hscan
  refine ⟨fault, p, rfl, fun hnil => ?_, fun e hparse => compile_of_ok hscan hparse,
    fun e hparse hpos => ?_, fun e hne hparse hpos => ?_⟩
  · have hparse : parseLexemes (scan source collect).lexemes = .error .emptyExpression := by
      rw [hnil]
      rfl
    rw [compile_of_error hscan hparse]
    rfl
  · rw [compile_of_error hscan hparse, SyntaxError.not_before_of_end hpos (Nat.le_of_lt hstop)]
    rfl
  · obtain ⟨x, hx, hplace⟩ := position?_of_parseLexemes hne hparse hpos
    have hlt := hbefore x hx
    have hwins : e.before (.located (.lexical fault) (.byte p)) = true := by
      rw [SyntaxError.before_of_position? hplace rfl]
      exact decide_eq_true hlt
    rw [compile_of_error hscan hparse, SyntaxError.resolveEnd_of_position? hpos, if_pos hwins]
    exact ⟨rfl, x.start, hplace, hlt⟩

/-- A source with a fault does not compile. -/
theorem compile_ne_ok_of_fault (hscan : (scan source collect).error = some lexical)
    (c : Compiled) : compile source collect ≠ .ok c := by
  cases hparse : parseLexemes (scan source collect).lexemes with
  | ok e => simp [compile_of_ok hscan hparse]
  | error e => simp [compile_of_error hscan hparse]

end Fault

/-- A source does not compile when its lexemes are not an expression. -/
theorem compile_ne_ok_of_error {source : String} {collect : Bool} {e : SyntaxError}
    (hparse : parseLexemes (scan source collect).lexemes = .error e) (c : Compiled) :
    compile source collect ≠ .ok c := by
  cases hscan : (scan source collect).error with
  | some lexical => exact compile_ne_ok_of_fault hscan c
  | none =>
      simp only [compile, hparse, hscan]
      intro h
      cases h

/-- **A syntax error before a fault is final.**  A list of lexemes that is rejected at one of them is
rejected with whatever follows, and with the same error unless that is about the height of a tree.
Where the scan of a source ends at a fault, the fault is reported when the lexemes before it are
none, are an expression, or are wrong only at their end; otherwise their error is reported, and it
lies before the fault.  So such a source never compiles, and when a syntax error is reported for it,
no lexemes in the place of the rest make an expression, and no source that begins with the same
lexemes compiles. -/
theorem syntax_error_before_fault_is_final :
    (∀ (xs more : List Placed) (e : SyntaxError), xs ≠ [] → parseLexemes xs = .error e →
      e.position? ≠ some .endOfInput →
        ∃ e', parseLexemes (xs ++ more) = .error e' ∧ (e' = e ∨ RaisedByHeight xs e)) ∧
    ∀ (source : String) (collect : Bool) (lexical : SyntaxError),
      (scan source collect).error = some lexical →
        ∃ fault p, lexical = .located (.lexical fault) (.byte p) ∧
          ((scan source collect).lexemes = [] → compile source collect = .error lexical) ∧
          (∀ e, parseLexemes (scan source collect).lexemes = .ok e →
            compile source collect = .error lexical) ∧
          (∀ e, parseLexemes (scan source collect).lexemes = .error e →
            e.position? = some .endOfInput → compile source collect = .error lexical) ∧
          (∀ e, (scan source collect).lexemes ≠ [] →
            parseLexemes (scan source collect).lexemes = .error e →
              e.position? ≠ some .endOfInput →
                compile source collect = .error e ∧
                  ∃ q, e.position? = some (.byte q) ∧ q < p) ∧
          (∀ c, compile source collect ≠ .ok c) ∧
          ∀ e, compile source collect = .error e → e ≠ lexical →
            (∀ more, ∃ e', parseLexemes ((scan source collect).lexemes ++ more) = .error e') ∧
              ∀ other collect', (scan source collect).lexemes <+: (scan other collect').lexemes →
                ∀ c, compile other collect' ≠ .ok c := by
  refine ⟨fun xs more e hne herror hpos => parseLexemes_append hne herror hpos more, ?_⟩
  intro source collect lexical hscan
  obtain ⟨fault, p, hfault, hnil, hok, hend, hwins⟩ := compile_of_fault hscan
  refine ⟨fault, p, hfault, hnil, hok, hend, hwins, compile_ne_ok_of_fault hscan, ?_⟩
  intro e hcompile hne
  -- a syntax error that is reported is one of a lexeme before the fault
  have hrejected : ∀ more, ∃ e',
      parseLexemes ((scan source collect).lexemes ++ more) = .error e' := by
    intro more
    have hother : compile source collect ≠ .error lexical := by
      intro heq
      exact hne (Except.error.inj (hcompile.symm.trans heq))
    cases hparse : parseLexemes (scan source collect).lexemes with
    | ok tree => exact absurd (hok tree hparse) hother
    | error e' =>
        have hlexemes : (scan source collect).lexemes ≠ [] := fun h => hother (hnil h)
        have hpos : e'.position? ≠ some .endOfInput := fun h => hother (hend e' hparse h)
        obtain ⟨e'', herror, _⟩ := parseLexemes_append hlexemes hparse hpos more
        exact ⟨e'', herror⟩
  refine ⟨hrejected, fun other collect' hbegins c => ?_⟩
  obtain ⟨more, hmore⟩ := hbegins
  obtain ⟨e', herror⟩ := hrejected more
  exact compile_ne_ok_of_error (hmore ▸ herror) c

/-- A closing parenthesis at the start is wrong before everything, a fault included. -/
theorem leading_closing_paren_is_final :
    (∃ e', parseLexemes ([⟨.symbol .closeParen, 0⟩] ++ [⟨.identifier "a", 1⟩]) = .error e' ∧
      (e' = .located (.unexpectedToken ")") (.byte 0) ∨
        RaisedByHeight [⟨.symbol .closeParen, 0⟩] (.located (.unexpectedToken ")") (.byte 0)))) ∧
      compile ")#" false = .error (.located (.unexpectedToken ")") (.byte 0)) := by
  refine ⟨syntax_error_before_fault_is_final.1 _ _ _ (by simp) (by cbv)
    (by simp [SyntaxError.position?]), ?_⟩
  obtain ⟨_, _, _, _, _, _, hwins, _⟩ := syntax_error_before_fault_is_final.2 ")#" false
    (.located (.lexical (.unexpectedCharacter '#')) (.byte 1)) (by cbv)
  have hlexemes : (scan ")#" false).lexemes = [⟨.symbol .closeParen, 0⟩] := by cbv
  exact (hwins _ (by simp [hlexemes]) (by cbv) (by simp [SyntaxError.position?])).1

/-- **Other text in the place of a fault** can change the last lexeme before it.  The syntax error of
the first source is reported before its fault, and yet the text before the fault goes on to a source
that compiles. -/
theorem other_text_may_compile :
    (scan "a a#" false).error =
        some (.located (.lexical (.unexpectedCharacter '#')) (.byte "a a".utf8ByteSize)) ∧
      compile "a a#" false = .error (.located (.trailingTokens "a") (.byte 2)) ∧
      compile ("a a" ++ "nd b") false =
        .ok ⟨.binary .and (.var "a" (.byte 0)) (.var "b" (.byte 6)) (.byte 2), none⟩ := by
  refine ⟨?_, ?_, ?_⟩ <;> cbv

end Reckon
