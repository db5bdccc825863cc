import Reckon.Proofs.ParserLocality
import Reckon.Proofs.Sentences
/-!
# Syntax errors point at the first offender

An error that is not about a limit splits the lexemes in two: those before it begin a sentence, and
together with the lexeme that it points at they begin none.  The first half holds since the parser
never reads on after a mistake.  For the second half the lexemes after the error are replaced: the
parser still gives the same error, but for a sentence it could only report a limit.

* `Derives.error_is_limit` — what is a sentence can only fail at a limit;
* `Rejects.first_offender` — the two halves;
* `syntax_error_at_first_offender` — the same by the position of the error.
-/

namespace Reckon

/-- The only error for a sentence is that the nesting is too deep. -/
theorem Derives.error_is_limit {xs : List Placed} {e : Expr} {n : Nat} {err : SyntaxError}
    (h : Derives .expression xs e n) (herror : parseLexemes xs = .error err) :
    ∃ p, err = .located .nestingTooDeep p := by
  rcases h.parseLexemes_okUnless with hok | ⟨_, p, hlimit⟩
  · rw [hok] at herror
    cases herror
  · rw [hlimit] at herror
    exact ⟨p, (Except.error.inj herror).symm⟩

/-- A reason that is not about a limit. -/
def Stop.Grammatical (why : Stop) : Prop := why ≠ .nesting ∧ why ≠ .height

/-- An error that is not about a limit has a grammatical reason. -/
theorem Stop.grammatical_of_error {why : Stop} {rest : List Placed}
    (h : ∀ p, why.error rest ≠ .located .nestingTooDeep p) : why.Grammatical := by
  constructor
  · intro hnesting
    subst hnesting
    cases rest <;> exact h _ rfl
  · intro hheight
    subst hheight
    cases rest <;> exact h _ rfl

/-- A list that is rejected for a grammatical reason is not a sentence. -/
theorem Rejects.not_derives {xs rest : List Placed} {why : Stop} (h : Rejects xs why rest)
    (hwhy : why.Grammatical) (hne : xs ≠ []) {e : Expr} {n : Nat} :
    ¬ Derives .expression xs e n := by
  intro hderives
  have herror := (parseLexemes_eq_error_iff hne).mpr ⟨why, rest, h, rfl⟩
  obtain ⟨p, hlimit⟩ := hderives.error_is_limit herror
  have hfault : why.fault rest = .nestingTooDeep := by
    cases rest <;> exact (SyntaxError.located.inj hlimit).1
  rcases Stop.limit_of_fault hfault with hnesting | hheight
  · exact hwhy.1 hnesting
  · exact hwhy.2 hheight

/-- **The first offender.**  The lexemes before a stop begin a sentence, and with the lexeme at
which the parser stops they begin none. -/
theorem Rejects.first_offender {xs rest : List Placed} {why : Stop} (h : Rejects xs why rest)
    (hwhy : why.Grammatical) :
    ∃ before, xs = before ++ rest ∧ Viable (before.map Placed.lexeme) ∧
      ∀ x after, rest = x :: after → ¬ Viable ((before ++ [x]).map Placed.lexeme) := by
  obtain ⟨before, hinput, hbegins⟩ := h.begins
  refine ⟨before, hinput, viable_iff.mpr hbegins, ?_⟩
  intro x after hrest hviable
  subst hrest
  obtain ⟨more, e, n, hderives⟩ := viable_iff.mp hviable
  obtain ⟨u, hu, hreplaced⟩ := h.replace hwhy.2
  obtain rfl := List.append_cancel_right (hinput.symm.trans hu)
  rw [List.append_assoc] at hderives
  exact (hreplaced more).not_derives hwhy (by simp) hderives

/-- A list that is rejected at its end begins a longer sentence, and is not one itself. -/
theorem Rejects.longer_sentence {xs : List Placed} {why : Stop} (h : Rejects xs why [])
    (hwhy : why.Grammatical) (hne : xs ≠ []) :
    (∃ more, more ≠ [] ∧ Sentence (xs.map Placed.lexeme ++ more)) ∧
      ¬ Sentence (xs.map Placed.lexeme) := by
  have hnot : ¬ Sentence (xs.map Placed.lexeme) := by
    intro hsentence
    obtain ⟨e, n, hderives⟩ := sentence_iff.mp hsentence
    exact h.not_derives hwhy hne hderives
  obtain ⟨before, hinput, ⟨more, hsentence⟩, _⟩ := h.first_offender hwhy
  rw [List.append_nil] at hinput
  subst hinput
  refine ⟨⟨more, ?_, hsentence⟩, hnot⟩
  intro hnil
  subst hnil
  exact hnot (by simpa using hsentence)

/-- In a list with increasing offsets, an offset is the one of a single lexeme. -/
theorem index_unique {xs : List Placed} (hordered : xs.Pairwise (·.start < ·.start)) {i j : Nat}
    (hi : i < xs.length) (hj : j < xs.length) (h : xs[i].position = xs[j].position) : i = j := by
  have hstart : xs[i].start = xs[j].start := Position.byte.inj h
  have hlt := List.pairwise_iff_getElem.mp hordered
  rcases Nat.lt_trichotomy i j with hij | hij | hij
  · have := hlt i j hi hj hij
    omega
  · exact hij
  · have := hlt j i hj hi hij
    omega

/-- A list that is rejected at a lexeme is split by the offset of that lexeme. -/
theorem Rejects.split_at {xs after : List Placed} {x : Placed} {why : Stop}
    (h : Rejects xs why (x :: after)) (hwhy : why.Grammatical)
    (hordered : xs.Pairwise (·.start < ·.start)) {i : Nat} (hi : i < xs.length)
    (hplace : x.position = xs[i].position) :
    Viable ((xs.take i).map Placed.lexeme) ∧ ¬ Viable ((xs.take (i + 1)).map Placed.lexeme) := by
  obtain ⟨before, rfl, hviable, hoffender⟩ := h.first_offender hwhy
  have hlength : before.length < (before ++ x :: after).length := by simp
  have hget : (before ++ x :: after)[before.length] = x := by simp
  have hindex : before.length = i := index_unique hordered hlength hi (by rw [hget, hplace])
  subst hindex
  have htake : (before ++ x :: after).take (before.length + 1) = before ++ [x] := by
    rw [List.take_length_add_append]
    rfl
  rw [List.take_left, htake]
  exact ⟨hviable, hoffender x after rfl⟩

/-- The position of a stop is the one of the first lexeme left, or the end of the input. -/
theorem Stop.position?_error (why : Stop) (rest : List Placed) :
    (why.error rest).position? =
      some (match rest with | [] => .endOfInput | x :: _ => x.position) := by
  cases rest <;> rfl

/-- **Syntax errors point at the first offending lexeme.**  An error that is not about a limit is
placed at a lexeme or at the end of the input.  At a lexeme, the ones before it begin a sentence, and
the ones up to it begin none.  At the end, the whole list begins a longer sentence and is not one
itself.  The only error for a sentence is that the nesting is too deep. -/
theorem syntax_error_at_first_offender (xs : List Placed) :
    (xs ≠ [] → xs.Pairwise (·.start < ·.start) → ∀ e, parseLexemes xs = .error e →
      (∀ p, e ≠ .located .nestingTooDeep p) →
        (e.position? = some .endOfInput ∨ ∃ x ∈ xs, e.position? = some x.position) ∧
        (∀ i (hi : i < xs.length), e.position? = some xs[i].position →
          Viable ((xs.take i).map Placed.lexeme) ∧
            ¬ Viable ((xs.take (i + 1)).map Placed.lexeme)) ∧
        (e.position? = some .endOfInput →
          (∃ more, more ≠ [] ∧ Sentence (xs.map Placed.lexeme ++ more)) ∧
            ¬ Sentence (xs.map Placed.lexeme))) ∧
      (Sentence (xs.map Placed.lexeme) → ∀ e, parseLexemes xs = .error e →
        ∃ p, e = .located .nestingTooDeep p) := by
  constructor
  · intro hne hordered e herror hlimit
    obtain ⟨why, rest, hrejects, rfl⟩ := (parseLexemes_eq_error_iff hne).mp herror
    have hwhy := Stop.grammatical_of_error hlimit
    obtain ⟨before, hinput, _⟩ := hrejects.begins
    rw [Stop.position?_error]
    cases rest with
    | nil =>
        refine ⟨.inl rfl, fun i hi hpos => ?_, fun _ => hrejects.longer_sentence hwhy hne⟩
        cases Option.some.inj hpos
    | cons x after =>
        refine ⟨.inr ⟨x, by simp [hinput], rfl⟩, fun i hi hpos => ?_, fun hpos => ?_⟩
        · exact hrejects.split_at hwhy hordered hi (Option.some.inj hpos)
        · cases Option.some.inj hpos
  · intro hsentence e herror
    obtain ⟨tree, n, hderives⟩ := sentence_iff.mp hsentence
    exact hderives.error_is_limit herror

/-- A name begins a sentence, and a name with a closing parenthesis after it begins none. -/
theorem closing_paren_after_name_offends :
    Viable [.identifier "a"] ∧ ¬ Viable [.identifier "a", .symbol .closeParen] :=
  ((syntax_error_at_first_offender [⟨.identifier "a", 0⟩, ⟨.symbol .closeParen, 2⟩]).1
    (by simp) (by simp) (.located .unmatchedClosingParen (.byte 2)) (by cbv) (by simp)).2.1 1
      (by simp) rfl

end Reckon
