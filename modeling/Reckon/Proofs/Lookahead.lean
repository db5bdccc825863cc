import Reckon.Proofs.CallDepth
import Reckon.Proofs.OperatorChains
/-!
# Every level comes back and looks one lexeme ahead

The levels are parsers in their own right: a whole expression, which is the same as a conditional,
and the seven levels of binary operators.  Each has lexemes that go on with what it has read, the
operators of the level and of all tighter ones, and for an expression the question mark.  Where a
level comes back with a tree, it stops before a lexeme that does not go on, and what it has taken is
read in the same way before any other such lexeme.  An opening parenthesis is left out there, since
it would turn a name before it into a call.

* `Phrase.looksAhead` — what holds of every phrase that is not the rest of a chain;
* `levels_come_back_and_look_one_lexeme_ahead` — the levels at every depth.
-/

namespace Reckon

open Reckon.Parser

/-! ### Parsers that look one lexeme ahead -/

/-- The parser of a phrase, with a budget of nesting levels, comes back as soon as 11 activations may
stand inside each other for each lexeme, and 10 more. -/
def Parser.ComesBack (parser : Parser Expr) (budget : Nat) (g : Phrase) : Prop :=
  ∀ xs n, 11 * xs.length + 10 ≤ n →
    Goal.runWithin n ⟨budget, g, xs⟩ = returned ((parser xs).map Parsed.pair)

/-- Where the parser comes back with a tree, it has taken something, and stops before a lexeme that
does not go on.  What it has taken is read in the same way before everything that does not go on and
opens nothing. -/
structure Parser.LooksAhead (parser : Parser Expr) (goesOn : Lexeme → Prop) : Prop where
  takes : ∀ {xs rest e}, (parser xs).map Parsed.pair = .ok (e, rest) →
    ∃ taken, taken ≠ [] ∧ xs = taken ++ rest
  stops : ∀ {xs rest e}, (parser xs).map Parsed.pair = .ok (e, rest) →
    ∀ x ∈ rest.head?, ¬ goesOn x.lexeme
  before : ∀ {taken rest other e}, (parser (taken ++ rest)).map Parsed.pair = .ok (e, rest) →
    (∀ x ∈ other.head?, ¬ goesOn x.lexeme ∧ x.lexeme ≠ .symbol .openParen) →
      (parser (taken ++ other)).map Parsed.pair = .ok (e, other)

/-! ### Phrases -/

/-- What may stand at the beginning of the lexemes follows nothing. -/
theorem Phrase.follows_nil {g : Phrase}
    (hchain : ∀ level tighter left, g ≠ .chain level tighter left) (xs : List Placed) :
    g.Follows [] xs := by
  cases g with
  | chain level tighter left => exact absurd rfl (hchain level tighter left)
  | _ => rfl

/-- **A phrase looks one lexeme ahead**, unless it is the rest of a chain. -/
theorem Phrase.looksAhead {parser : Parser Expr} {b : Nat} {g : Phrase} {goesOn : Lexeme → Prop}
    (hparser : ∀ xs, (parser xs).map Parsed.pair = g.read b xs) (hfit : g.Fit)
    (hchain : ∀ level tighter left, g ≠ .chain level tighter left)
    (hgoesOn : ∀ l, g.Continues l ↔ goesOn l) : parser.LooksAhead goesOn := by
  obtain rfl : g.Continues = goesOn := funext fun l => propext (hgoesOn l)
  constructor
  case takes =>
    intro xs rest e hread
    rw [hparser] at hread
    obtain ⟨w, n, hw, hspan⟩ := Phrase.spans_of_read hread
    exact ⟨w, hspan.derives.ne_nil hchain, hw⟩
  case stops =>
    intro xs rest e hread x hx
    rw [hparser] at hread
    obtain ⟨w, n, -, hspan⟩ := Phrase.spans_of_read hread
    exact (hspan.ends [] (follows_nil hchain _) x hx).1
  case before =>
    intro taken rest other e hread hother
    rw [hparser] at hread ⊢
    obtain ⟨w, n, hw, hspan⟩ := Phrase.spans_of_read hread
    obtain rfl := List.append_cancel_right hw
    exact hspan.read hfit fun x hx => ⟨(hother x hx).1, fun hopen => absurd hopen (hother x hx).2⟩

theorem Phrase.continues_expression_iff (l : Lexeme) :
    expression.Continues l ↔ (∃ op, l.binary? = some op) ∨ l = .symbol .question := by
  simp only [Continues, openLevels, true_and, binary?_eq_some_iff]
  refine or_congr_left ⟨fun h => ?_, fun h => ?_⟩
  · obtain ⟨level, -, op, hop⟩ := h
    exact ⟨op, level_of_mem_spellings hop ▸ hop⟩
  · obtain ⟨op, hop⟩ := h
    exact ⟨op.level, by cases op.level <;> decide, op, hop⟩

theorem Phrase.continues_levels_iff (ls : List Level) (l : Lexeme) :
    (levels ls).Continues l ↔ ∃ op, l.binary? = some op ∧ op.level ∈ ls := by
  simp only [Continues, openLevels, reduceCtorEq, false_and, or_false, binary?_eq_some_iff]
  constructor
  · intro h
    obtain ⟨level, hlevel, op, hop⟩ := h
    obtain rfl := level_of_mem_spellings hop
    exact ⟨op, hop, hlevel⟩
  · intro h
    obtain ⟨op, hop, hlevel⟩ := h
    exact ⟨op.level, hlevel, op, hop⟩

/-- A phrase that starts no list of arguments comes back. -/
theorem Phrase.comesBack {parser : Parser Expr} {b : Nat} {g : Phrase}
    (hparser : ∀ xs, (parser xs).map Parsed.pair = g.read b xs) (hfit : g.Fit)
    (hrank : Goal.rank g ≤ Level.loosestFirst.length + 2) : parser.ComesBack b g := by
  intro xs n hn
  rw [hparser]
  refine Goal.runWithin_eq hfit ?_
  simp only [Goal.callDepth, Level.loosestFirst, List.length_cons, List.length_nil] at hrank ⊢
  omega

/-! ### The levels -/

/-- **Every level comes back and looks one lexeme ahead**, at every depth.  For an expression, all
binary operators and the question mark go on; for a level of binary operators, its own operators and
those of the tighter levels. -/
theorem levels_come_back_and_look_one_lexeme_ahead (depth : Nat) :
    ((Parser.expression depth).ComesBack (maxNesting - depth) .expression ∧
      (Parser.expression depth).LooksAhead fun l =>
        (∃ op, l.binary? = some op) ∨ l = .symbol .question) ∧
    ∀ level : Level,
      (Parser.binaryLevel level depth).ComesBack (maxNesting - depth) (.levels level.andTighter) ∧
      (Parser.binaryLevel level depth).LooksAhead fun l =>
        ∃ op, l.binary? = some op ∧ op.level ∈ level.andTighter := by
  constructor
  · have hparser (xs : List Placed) : (Parser.expression depth xs).map Parsed.pair =
        Phrase.expression.read (maxNesting - depth) xs := rfl
    exact ⟨Phrase.comesBack hparser trivial (Nat.le_refl _),
      Phrase.looksAhead hparser trivial (by simp) Phrase.continues_expression_iff⟩
  · intro level
    have hparser (xs : List Placed) : (Parser.binaryLevel level depth xs).map Parsed.pair =
        (Phrase.levels level.andTighter).read (maxNesting - depth) xs := rfl
    have hfit := level.andTighter_suffix_loosestFirst
    exact ⟨Phrase.comesBack hparser hfit (Nat.succ_le_succ (Nat.le_succ_of_le hfit.length_le)),
      Phrase.looksAhead hparser hfit (by simp) (Phrase.continues_levels_iff _)⟩

/-- A product is read in the same way before a plus sign and before a closing parenthesis. -/
theorem product_read_before_sum_and_closing_parenthesis :
    ∃ e, (Parser.binaryLevel .multiplicative 0
        [⟨.identifier "a", 0⟩, ⟨.symbol .star, 1⟩, ⟨.identifier "b", 2⟩, ⟨.symbol .plus, 3⟩]).map
          Parsed.pair = .ok (e, [⟨.symbol .plus, 3⟩]) ∧
      (Parser.binaryLevel .multiplicative 0
        [⟨.identifier "a", 0⟩, ⟨.symbol .star, 1⟩, ⟨.identifier "b", 2⟩,
          ⟨.symbol .closeParen, 3⟩]).map Parsed.pair = .ok (e, [⟨.symbol .closeParen, 3⟩]) ∧
      Goal.runWithin 54 ⟨64, .levels Level.multiplicative.andTighter,
        [⟨.identifier "a", 0⟩, ⟨.symbol .star, 1⟩, ⟨.identifier "b", 2⟩, ⟨.symbol .plus, 3⟩]⟩ =
          returned (.ok (e, [⟨.symbol .plus, 3⟩])) := by
  obtain ⟨hback, hahead⟩ := (levels_come_back_and_look_one_lexeme_ahead 0).2 .multiplicative
  have hread : (Parser.binaryLevel .multiplicative 0
      ([⟨.identifier "a", 0⟩, ⟨.symbol .star, 1⟩, ⟨.identifier "b", 2⟩] ++
        [⟨.symbol .plus, 3⟩])).map Parsed.pair = .ok (.binary .multiply (.var "a" (.byte 0)) (.var "b" (.byte 2)) (.byte 1),
          [⟨.symbol .plus, 3⟩]) := by cbv
  refine ⟨_, hread, hahead.before hread ?_, ?_⟩
  · simp [Lexeme.binary?, Symbol.binary?]
  · exact hread ▸ hback _ 54 (by decide)

end Reckon
