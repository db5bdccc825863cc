import Reckon.Proofs.Grammar
import Reckon.Proofs.TreeShape
/-!
# Writing a tree down

A tree is written as a list of lexemes with parentheses only where the levels of the operators need
them.  An operand stands at a place of certain levels: the left operand of a binary operator at the
level of the operator and the tighter ones, the right operand at the tighter ones only, the condition
of a conditional at all levels, and the operand of a prefix operator at none.  A binary operator of
another level and a conditional need parentheses there; branches and arguments never do.

* `Expr.written` — the lexemes of a tree;
* `Expr.nesting` — the nesting of what is written, found on the tree.
-/

namespace Reckon

/-- A choice among the lexemes that spell one operator. -/
structure Spelling where
  binary : BinaryOp → Lexeme
  prefixed : UnaryOp → Lexeme
  binary_mem : ∀ op, (binary op, op) ∈ op.level.spellings
  prefixed_mem : ∀ op, (prefixed op, op) ∈ UnaryOp.spellings

/-- Every operator by its mark, and by its word where it has no mark. -/
def Spelling.marks : Spelling where
  binary
    | .add => .symbol .plus
    | .subtract => .symbol .minus
    | .multiply => .symbol .star
    | .divide => .symbol .slash
    | .modulo => .symbol .percent
    | .less => .symbol .less
    | .greater => .symbol .greater
    | .lessEqual => .symbol .lessEqual
    | .greaterEqual => .symbol .greaterEqual
    | .equal => .symbol .equalEqual
    | .notEqual => .symbol .bangEqual
    | .member => .keyword .member
    | .xor => .keyword .xor
    | .and => .symbol .ampAmp
    | .or => .symbol .barBar
  prefixed
    | .negate => .symbol .minus
    | .not => .symbol .bang
  binary_mem op := by cases op <;> simp [Level.spellings, BinaryOp.level]
  prefixed_mem op := by cases op <;> simp [UnaryOp.spellings]

/-- The lexeme of a constant. -/
def Value.lexeme : Value → Lexeme
  | .number x => .number x
  | .boolean b => .boolean b
  | .string s => .string s

@[simp] theorem Value.literal?_lexeme (v : Value) : v.lexeme.literal? = some v := by
  cases v <;> rfl

/-! ### Parentheses -/

/-- What is written, in parentheses unless it fits as it is. -/
def enclose (fits : Bool) (w : List Lexeme) : List Lexeme :=
  if fits then w else .symbol .openParen :: (w ++ [.symbol .closeParen])

/-- The nesting of what is written, counting the parentheses around it. -/
def encloseNesting (fits : Bool) (n : Nat) : Nat := if fits then n else 1 + n

namespace Expr

/-- Whether the tree may stand at a place of the given levels without parentheses. -/
def fits (ls : List Level) : Expr → Bool
  | binary op _ _ _ => ls.contains op.level
  | conditional _ _ _ _ => false
  | _ => true

mutual

/-- The lexemes of a tree, with parentheses only where they are needed. -/
def written (s : Spelling) : Expr → List Lexeme
  | literal v _ => [v.lexeme]
  | var name _ => [.identifier name]
  | unary op a _ => s.prefixed op :: enclose (a.fits []) (a.written s)
  | binary op a b _ =>
    enclose (a.fits op.level.andTighter) (a.written s) ++
      s.binary op :: enclose (b.fits op.level.andTighter.tail) (b.written s)
  | conditional c y n _ =>
    enclose (c.fits Level.loosestFirst) (c.written s) ++
      .symbol .question :: (y.written s ++ .symbol .colon :: n.written s)
  | call name args _ =>
    .identifier name :: .symbol .openParen :: (writtenAll s args ++ [.symbol .closeParen])

/-- The lexemes of several trees, with commas between them. -/
def writtenAll (s : Spelling) : List Expr → List Lexeme
  | [] => []
  | [e] => e.written s
  | e :: f :: es => e.written s ++ .symbol .comma :: writtenAll s (f :: es)

end

mutual

/-- The nesting of the written form. -/
def nesting : Expr → Nat
  | literal _ _ | var _ _ => 0
  | unary _ a _ => 1 + encloseNesting (a.fits []) a.nesting
  | binary op a b _ =>
    max (encloseNesting (a.fits op.level.andTighter) a.nesting)
      (encloseNesting (b.fits op.level.andTighter.tail) b.nesting)
  | conditional c y n _ =>
    max (encloseNesting (c.fits Level.loosestFirst) c.nesting) (1 + max y.nesting n.nesting)
  | call _ args _ => 1 + nestingAll args

/-- The greatest nesting of several written forms, `0` if there is none. -/
def nestingAll : List Expr → Nat
  | [] => 0
  | e :: es => max e.nesting (nestingAll es)

end

/-- The nesting of the written form at a place of the given levels. -/
def nestingAt (ls : List Level) (e : Expr) : Nat := encloseNesting (e.fits ls) e.nesting

theorem nestingAll_append (as bs : List Expr) :
    nestingAll (as ++ bs) = max (nestingAll as) (nestingAll bs) := by
  induction as with
  | nil => simp [nestingAll]
  | cons a as ih => simp [nestingAll, ih, Nat.max_assoc]

/-- What fits at a place fits at a place of more levels. -/
theorem fits_mono {ls more : List Level} (hsub : ls ⊆ more) {e : Expr} (h : e.fits ls = true) :
    e.fits more = true := by
  cases e with
  | binary op a b p =>
      have hlevel : op.level ∈ ls := by simpa [fits] using h
      simpa [fits] using hsub hlevel
  | conditional => cases h
  | _ => rfl

theorem nesting_le_nestingAt (ls : List Level) (e : Expr) : e.nesting ≤ e.nestingAt ls := by
  unfold nestingAt encloseNesting
  split <;> omega

theorem nestingAt_le_succ (ls : List Level) (e : Expr) : e.nestingAt ls ≤ 1 + e.nesting := by
  unfold nestingAt encloseNesting
  split <;> omega

theorem nestingAt_eq_of_fits {ls : List Level} {e : Expr} (h : e.fits ls = true) :
    e.nestingAt ls = e.nesting := by
  simp [nestingAt, encloseNesting, h]

/-- A place of more levels needs no more parentheses. -/
theorem nestingAt_antitone {ls more : List Level} (hsub : ls ⊆ more) (e : Expr) :
    e.nestingAt more ≤ e.nestingAt ls := by
  by_cases h : e.fits ls = true
  · exact Nat.le_of_eq (by rw [nestingAt_eq_of_fits h, nestingAt_eq_of_fits (fits_mono hsub h)])
  · have hle := nestingAt_le_succ more e
    have heq : e.nestingAt ls = 1 + e.nesting := by simp [nestingAt, encloseNesting, h]
    omega

end Expr

/-! ### Levels and the tighter ones -/

/-- From a level on, the levels are the level and the tighter ones. -/
theorem Level.eq_andTighter {level : Level} {tighter : List Level}
    (h : level :: tighter <:+ Level.loosestFirst) : level :: tighter = level.andTighter := by
  obtain ⟨before, hbefore⟩ := h
  have hnodup : (before ++ level :: tighter).Nodup := hbefore ▸ (by decide)
  have hnot : level ∉ before := fun hmem =>
    (List.nodup_append.mp hnodup).2.2 level hmem level (by simp) rfl
  have hall : ∀ l ∈ before, decide (l ≠ level) = true := by
    intro l hl
    have hne : l ≠ level := fun heq => hnot (heq ▸ hl)
    simpa using hne
  rw [Level.andTighter, ← hbefore, List.dropWhile_append_of_pos hall]
  simp

/-- At a place that has the level of an operator, the tighter levels follow. -/
theorem Level.andTighter_suffix {level : Level} {ls : List Level} (hls : ls <:+ Level.loosestFirst)
    (hmem : level ∈ ls) : level.andTighter <:+ ls := by
  obtain ⟨before, tighter, rfl⟩ := List.append_of_mem hmem
  have hsuffix := List.suffix_append before (level :: tighter)
  rw [← Level.eq_andTighter (hsuffix.trans hls)]
  exact hsuffix

theorem Level.andTighter_eq_cons (level : Level) :
    level.andTighter = level :: level.andTighter.tail := by
  cases level <;> rfl

theorem Level.mem_loosestFirst (level : Level) : level ∈ Level.loosestFirst := by
  cases level <;> decide

end Reckon
