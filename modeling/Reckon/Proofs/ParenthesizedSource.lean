import Reckon.Proofs.Layout
import Reckon.Proofs.NestingBudget
import Reckon.Proofs.TallTrees
/-!
# A source in parentheses

An opening parenthesis is a lexeme whatever follows it, and a closing one ends every lexeme before
it.  So the lexemes of a source in parentheses are those of the source, one byte further on, between
the two.  They derive the tree of the source in one more nesting level, and the only thing that can
go wrong is that this is one too many.

* `Lexes.append` — a text behind which another one starts that ends its last lexeme;
* `compile_parenthesized` — the outcome for the source in parentheses;
* `depth_is_a_budget` — the same for every depth and every level.
-/

namespace Reckon

/-! ### The lexemes of two texts -/

/-- **Two texts** do not interact if the second starts with a character that ends the last lexeme of
the first. -/
theorem Lexes.append {start : Nat} {cs back : List Char} {xs ys : List Placed}
    (h : Lexes start cs xs) (hback : Lexes (start + (String.ofList cs).utf8ByteSize) back ys)
    (hends : ∀ d ∈ back.head?, EndsLexeme d) : Lexes start (cs ++ back) (xs ++ ys) := by
  induction h with
  | nil => simpa using hback
  | blank hlayout _ ih =>
      rw [utf8ByteSize_ofList_cons, ← Nat.add_assoc] at hback
      exact .blank hlayout (ih hback)
  | @lexeme start c cs text rest l xs hmunch _ ih =>
      obtain ⟨text, rfl⟩ : ∃ t, text = c :: t := by
        have hhead := munch_text_head c cs
        rw [hmunch] at hhead
        exact List.head?_eq_some_iff.mp hhead
      obtain rfl : text ++ rest = cs := by
        have happend := munch_text_append_rest c cs
        rw [hmunch] at happend
        exact List.tail_eq_of_cons_eq happend
      have hr : ∀ d ∈ (rest ++ back).head?, EndsLexeme d ∨ rest.head? = some d := by
        cases rest with
        | nil => exact fun d hd => .inl (hends d hd)
        | cons r rest => exact fun d hd => .inr hd
      rw [← List.cons_append, String.ofList_append, String.utf8ByteSize_append,
        ← Nat.add_assoc] at hback
      rw [List.cons_append, List.append_assoc]
      exact .lexeme (munch_replace hmunch hr) (ih hback)

/-! ### Parentheses -/

/-- The lexemes of a text in parentheses, when the text has `size` bytes. -/
def parenthesized (size : Nat) (xs : List Placed) : List Placed :=
  ⟨.symbol .openParen, 0⟩ ::
    (xs.map (Placed.moved (· + 1)) ++ [⟨.symbol .closeParen, 1 + size⟩])

theorem endsLexeme_closeParen : EndsLexeme ')' :=
  ⟨rfl, rfl, fun c => by simp [symbolOfTwo?]⟩

theorem lexes_parenthesized {cs : List Char} {xs : List Placed} (h : Lexes 0 cs xs) :
    Lexes 0 ('(' :: (cs ++ [')'])) (parenthesized (String.ofList cs).utf8ByteSize xs) := by
  have hmoved : Lexes 1 cs (xs.map (Placed.moved (· + 1))) := h.moved (by omega)
  have hopen : munch '(' (cs ++ [')']) = ⟨.lexeme (.symbol .openParen), ['('], cs ++ [')']⟩ :=
    munch_lone_symbol rfl (by simp [symbolOfTwo?]) _
  have hclose : munch ')' [] = ⟨.lexeme (.symbol .closeParen), [')'], []⟩ :=
    munch_lone_symbol rfl (by simp [symbolOfTwo?]) _
  refine .lexeme hopen (hmoved.append (.lexeme hclose .nil) ?_)
  intro d hd
  obtain rfl : ')' = d := by simpa using hd
  exact endsLexeme_closeParen

/-- In parentheses, the lexemes of an expression are the same expression, or nest too deep. -/
theorem parseLexemes_parenthesized {xs : List Placed} {e : Expr} (h : parseLexemes xs = .ok e)
    (size : Nat) :
    parseLexemes (parenthesized size xs) = .ok (e.moved (· + 1)) ∨
      ∃ p, parseLexemes (parenthesized size xs) = .error (.located .nestingTooDeep p) := by
  have hmoved := parseLexemes_moved (· + 1) xs
  rw [h] at hmoved
  obtain ⟨n, hderives, -, -⟩ := derives_of_parseLexemes hmoved
  have hgroup : Derives .expression (parenthesized size xs) (e.moved (· + 1)) (1 + n) :=
    .plain (hderives.group.of_primary _)
  rcases hgroup.parseLexemes_okUnless with hok | ⟨-, hlimit⟩
  · exact .inl hok
  · exact .inr hlimit

/-- **A source in parentheses** has the tree of the source, one byte further on, or nests too
deep. -/
theorem compile_parenthesized {source : String} {collect : Bool} {c : Compiled}
    (h : compile source collect = .ok c) :
    (∃ c', compile ("(" ++ source ++ ")") collect = .ok c' ∧ c'.expr = c.expr.moved (· + 1)) ∨
      ∃ p, compile ("(" ++ source ++ ")") collect = .error (.located .nestingTooDeep p) := by
  obtain ⟨hscan, hparse, -⟩ := compile_eq_ok_iff.mp h
  have hlexes : Lexes 0 source.toList (scan source collect).lexemes := lexes_of_scanFrom hscan
  have hwhole := lexes_parenthesized hlexes
  have htext : ("(" ++ source ++ ")").toList = '(' :: (source.toList ++ [')']) := by simp
  rw [← htext] at hwhole
  obtain ⟨herror, hlexemes⟩ := hwhole.scanFrom collect
  have hlexemes : (scan ("(" ++ source ++ ")") collect).lexemes = parenthesized _ _ := hlexemes
  rw [compile_of_clean herror, hlexemes]
  rcases parseLexemes_parenthesized hparse (String.ofList source.toList).utf8ByteSize with
    hok | ⟨p, hlimit⟩
  · refine .inl ⟨⟨_, (scan ("(" ++ source ++ ")") collect).tokens⟩, ?_, rfl⟩
    rw [hok]
    rfl
  · refine .inr ⟨p, ?_⟩
    rw [hlimit]
    cases p <;> rfl

/-! ### Every depth -/

/-- **The nesting depth is a budget.**  What an expression or a level of binary operators is read as
at some depth, or the error that it has there if that is not about a limit, is the same at every
smaller depth.  So a source in parentheses has the same tree, one byte further on, or nests too
deep. -/
theorem depth_is_a_budget :
    (∀ outer depth, outer ≤ depth → ∀ xs,
      UnlessTooDeep (Parser.expression depth xs) (Parser.expression outer xs) ∧
        ∀ level, UnlessTooDeep (Parser.binaryLevel level depth xs)
          (Parser.binaryLevel level outer xs)) ∧
      ∀ source collect c, compile source collect = .ok c →
        (∃ c', compile ("(" ++ source ++ ")") collect = .ok c' ∧
          c'.expr = c.expr.moved (· + 1)) ∨
        ∃ p, compile ("(" ++ source ++ ")") collect = .error (.located .nestingTooDeep p) :=
  ⟨fun _ _ hle xs => ⟨raise_expression hle xs, fun level => raise_binaryLevel hle level xs⟩,
    fun _ _ _ => compile_parenthesized⟩

/-- A negation is the same tree with one level left as with two, and one byte further on in
parentheses. -/
theorem negation_with_levels_left_and_in_parentheses :
    let lexemes : List Placed := [⟨.symbol .minus, 0⟩, ⟨.identifier "a", 1⟩]
    let negation : Except SyntaxError (Parsed Expr lexemes.length) :=
      .ok ⟨.unary .negate (.var "a" (.byte 1)) (.byte 0), [], by decide⟩
    Parser.expression 62 lexemes = negation ∧ Parser.expression 63 lexemes = negation ∧
      ∃ c', compile "(-a)" false = .ok c' ∧
        c'.expr = .unary .negate (.var "a" (.byte 2)) (.byte 1) := by
  intro lexemes negation
  have hdeep : Parser.expression 63 lexemes = negation := by cbv
  have hshallow : Parser.expression 62 lexemes = Parser.expression 63 lexemes :=
    (depth_is_a_budget.1 62 63 (by decide) lexemes).1 (by simp [hdeep, negation])
  have hcompile : compile "-a" false =
      .ok ⟨.unary .negate (.var "a" (.byte 1)) (.byte 0), none⟩ := by cbv
  have hreads : (compile ("(" ++ "-a" ++ ")") false).isOk = true := by cbv
  obtain htree | ⟨p, hlimit⟩ := depth_is_a_budget.2 "-a" false _ hcompile
  · exact ⟨hshallow.trans hdeep, hdeep, htree⟩
  · rw [hlimit] at hreads
    cases hreads

end Reckon
