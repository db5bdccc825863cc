import Mathlib.Logic.Relation
import Reckon.Proofs.PhraseReading
/-!
# Heights that are kept while they change

Two loops compute heights without recursion: the walk over a tree, and a chain, which keeps the
height of the tree that it has folded so far.  A chain is told here as folds from one state to the
next.  The parser comes to where the folds end, and every fold keeps the height of its tree.

* `Folding.Fold`, `Folding.Stops` — a chain while it is folded, and where nothing more is;
* `Folding.height_eq_of_folds` — what any number of folds keeps;
* `heights_agree` — both loops end with the structural height.
-/

namespace Reckon

open Reckon.Parser

/-! ### A chain while it is folded -/

/-- A chain while it is folded: the tree so far, the height that is kept for it, and the lexemes
that are left. -/
structure Folding where
  tree : Expr
  height : Nat
  input : List Placed

namespace Folding

/-- What the chain comes to from here. -/
def outcome (level : Level) (operand : Parser Expr) (s : Folding) :
    Except SyntaxError (Expr × List Placed) :=
  (chainFrom level operand s.tree s.height s.input).map Parsed.pair

/-- The next operator is folded with its right operand.  The height is found from the one that is
kept, not from the tree. -/
inductive Fold (level : Level) (operand : Parser Expr) : Folding → Folding → Prop
  | operator {tree : Expr} {height : Nat} {x : Placed} {xs : List Placed} {op : BinaryOp}
      {right : Parsed Expr xs.length} (hop : operatorOf? level x.lexeme = some op)
      (hright : operand xs = .ok right) (hlow : max height right.value.height + 1 ≤ maxTreeHeight) :
      Fold level operand ⟨tree, height, x :: xs⟩
        ⟨.binary op tree right.value x.position, max height right.value.height + 1, right.rest⟩

/-- Nothing more is folded, and what comes of it: no operator of the level follows, its right
operand fails, or the tree would be too high. -/
inductive Stops (level : Level) (operand : Parser Expr) :
    Folding → Except SyntaxError (Expr × List Placed) → Prop
  | complete {tree : Expr} {height : Nat} {xs : List Placed}
      (hnone : ∀ x ∈ xs.head?, operatorOf? level x.lexeme = none) :
      Stops level operand ⟨tree, height, xs⟩ (.ok (tree, xs))
  | operand {tree : Expr} {height : Nat} {x : Placed} {xs : List Placed} {op : BinaryOp}
      {fault : SyntaxError} (hop : operatorOf? level x.lexeme = some op)
      (hright : operand xs = .error fault) :
      Stops level operand ⟨tree, height, x :: xs⟩ (.error fault)
  | tooHigh {tree : Expr} {height : Nat} {x : Placed} {xs : List Placed} {op : BinaryOp}
      {right : Parsed Expr xs.length} (hop : operatorOf? level x.lexeme = some op)
      (hright : operand xs = .ok right)
      (htall : maxTreeHeight < max height right.value.height + 1) :
      Stops level operand ⟨tree, height, x :: xs⟩ (.error (.located .nestingTooDeep x.position))

variable {level : Level} {operand : Parser Expr} {s t : Folding}

/-- **One fold.**  What the chain comes to stays the same. -/
theorem Fold.outcome_eq (h : Fold level operand s t) :
    s.outcome level operand = t.outcome level operand := by
  cases h with
  | @operator tree height x xs op right hop hright hlow =>
      rw [outcome, chainFrom]
      simp only [hop, hright, bind, Except.bind, if_neg (Nat.not_lt_of_le hlow), outcome]
      cases chainFrom level operand (.binary op tree right.value x.position)
        (max height right.value.height + 1) right.rest <;> rfl

/-- Where nothing more is folded, the chain has come to what is said there. -/
theorem Stops.outcome_eq {r : Except SyntaxError (Expr × List Placed)}
    (h : Stops level operand s r) : s.outcome level operand = r := by
  cases h with
  | @complete tree height xs hnone =>
      cases xs with
      | nil => simp [outcome, chainFrom, Except.map, Parsed.pair]
      | cons x xs =>
          have hx := hnone x rfl
          rw [outcome, chainFrom]
          simp only [hx]
          rfl
  | operand hop hright =>
      rw [outcome, chainFrom]
      simp only [hop, hright, bind, Except.bind]
      rfl
  | tooHigh hop hright htall =>
      rw [outcome, chainFrom]
      simp only [hop, hright, bind, Except.bind, if_pos htall]
      rfl

/-- There is a next fold, or nothing more is folded. -/
theorem fold_or_stops (level : Level) (operand : Parser Expr) (s : Folding) :
    (∃ t, Fold level operand s t ∧ t.input.length < s.input.length) ∨
      ∃ r, Stops level operand s r := by
  obtain ⟨tree, height, input⟩ := s
  cases input with
  | nil => exact .inr ⟨_, .complete (by simp)⟩
  | cons x xs =>
      cases hop : operatorOf? level x.lexeme with
      | none => exact .inr ⟨_, .complete (by simpa using hop)⟩
      | some op =>
          cases hright : operand xs with
          | error fault => exact .inr ⟨_, .operand hop hright⟩
          | ok right =>
              by_cases htall : maxTreeHeight < max height right.value.height + 1
              · exact .inr ⟨_, .tooHigh hop hright htall⟩
              · exact .inl ⟨_, .operator hop hright (Nat.le_of_not_lt htall),
                  Nat.lt_succ_of_lt right.rest_lt⟩

/-- A chain is folded until nothing more is, which then says what it has come to. -/
theorem exists_stops (level : Level) (operand : Parser Expr) (s : Folding) :
    ∃ last, Relation.ReflTransGen (Fold level operand) s last ∧
      Stops level operand last (s.outcome level operand) := by
  -- an operand takes something, so that fewer lexemes are left after each fold
  induction hlength : s.input.length using Nat.strongRecOn generalizing s with
  | _ length ih =>
      subst hlength
      rcases fold_or_stops level operand s with ⟨t, hfold, hlt⟩ | ⟨r, hstops⟩
      · obtain ⟨last, hfolds, hstops⟩ := ih _ hlt t rfl
        exact ⟨last, .head hfold hfolds, hfold.outcome_eq ▸ hstops⟩
      · exact ⟨s, .refl, hstops.outcome_eq.symm ▸ hstops⟩

/-- **One fold.**  The height that is kept is the height of the tree. -/
theorem Fold.height_eq (h : Fold level operand s t) (hs : s.height = s.tree.height) :
    t.height = t.tree.height := by
  cases h with
  | operator => rw [Expr.height_binary, ← hs]

/-- **Any number of folds.**  The height that is kept stays the height of the tree. -/
theorem height_eq_of_folds (h : Relation.ReflTransGen (Fold level operand) s t)
    (hs : s.height = s.tree.height) : t.height = t.tree.height := by
  induction h with
  | refl => exact hs
  | tail _ hfold ih => exact hfold.height_eq ih

/-- What has been read as its first operand begins a chain. -/
def start {n : Nat} (first : Parsed Expr n) : Folding :=
  ⟨first.value, first.value.height, first.rest⟩

theorem outcome_start {input : List Placed} {first : Parsed Expr input.length}
    (hfirst : operand input = .ok first) :
    (start first).outcome level operand = (chain level operand input).map Parsed.pair := by
  simp only [outcome, start, chain, hfirst, bind, Except.bind]
  cases chainFrom level operand first.value first.value.height first.rest <;> rfl

end Folding

/-! ### Both loops -/

/-- **The heights that the loops keep are structural heights.**

The walk over a tree comes to the structural height.  In whichever order it takes what is pending,
it takes one node with each turn and can go on until nothing is pending, and then has come to the
same height.

A chain is folded until nothing more is, with the outcome of its parser; from its first operand on,
the height that it keeps is the height of the tree that it has folded so far. -/
theorem heights_agree :
    (∀ e : Expr, e.height = e.longestPath ∧ Walk.Turns e.size (.start e) ⟨e.height, []⟩ ∧
      ∀ n w, Walk.Turns n (.start e) w → n + w.nodes = e.size ∧
        (w.pending = [] → w.best = e.longestPath) ∧ (w.pending ≠ [] → ∃ v, Walk.Turn w v)) ∧
    ∀ (level : Level) (operand : Parser Expr) (input : List Placed)
      (first : Parsed Expr input.length), operand input = .ok first →
        (∀ s, Relation.ReflTransGen (Folding.Fold level operand) (.start first) s →
          s.height = s.tree.longestPath) ∧
        ∃ last, Relation.ReflTransGen (Folding.Fold level operand) (.start first) last ∧
          Folding.Stops level operand last ((chain level operand input).map Parsed.pair) := by
  constructor
  · intro e
    refine ⟨e.height_eq_longestPath, ?_, fun n w hturns => ⟨?_, ?_, Walk.exists_turn⟩⟩
    · rw [← Walk.nodes_start]
      exact Walk.turns_deepest 0 [(e, 1)]
    · rw [hturns.nodes_eq, Walk.nodes_start]
    · exact Walk.best_eq_of_turns hturns
  · intro level operand input first hfirst
    constructor
    · intro s hfolds
      rw [← Expr.height_eq_longestPath]
      exact Folding.height_eq_of_folds hfolds rfl
    · rw [← Folding.outcome_start hfirst]
      exact Folding.exists_stops level operand (.start first)

/-- A walk over a negation, and a sum of two variables while it is folded. -/
theorem heights_of_negation_and_sum :
    (∃ w, Walk.Turns 1 (.start (.unary .negate (.var "a" (.byte 1)) (.byte 0))) w ∧
      1 + w.nodes = 2 ∧ ∃ v, Walk.Turn w v) ∧
    (Walk.Turns 2 (.start (.unary .negate (.var "a" (.byte 1)) (.byte 0))) ⟨2, []⟩ ∧
      2 = (Expr.unary .negate (.var "a" (.byte 1)) (.byte 0)).longestPath) ∧
    ∃ first, Parser.unary none [⟨.identifier "a", 0⟩, ⟨.symbol .plus, 2⟩, ⟨.identifier "b", 4⟩] =
        .ok first ∧
      (∃ s, Relation.ReflTransGen (Folding.Fold .additive (Parser.unary none)) (.start first) s ∧
        s.input = [] ∧ s.height = s.tree.longestPath) ∧
      ∃ last,
        Relation.ReflTransGen (Folding.Fold .additive (Parser.unary none)) (.start first) last ∧
        Folding.Stops .additive (Parser.unary none) last
          ((chain .additive (Parser.unary none)
            [⟨.identifier "a", 0⟩, ⟨.symbol .plus, 2⟩, ⟨.identifier "b", 4⟩]).map Parsed.pair) := by
  have hroot : Walk.Turn (.start (.unary .negate (.var "a" (.byte 1)) (.byte 0)))
      ⟨1, [(.var "a" (.byte 1), 2)]⟩ := Walk.turn_last 0 1 _ []
  have hleaf : Walk.Turn ⟨1, [(.var "a" (.byte 1), 2)]⟩ ⟨2, []⟩ := Walk.turn_last 1 2 _ []
  have hone : Walk.Turns 1 _ _ := .turn hroot (.done _)
  have htwo : Walk.Turns 2 _ _ := .turn hroot (.turn hleaf (.done _))
  obtain ⟨-, -, hwalks⟩ := heights_agree.1 (.unary .negate (.var "a" (.byte 1)) (.byte 0))
  obtain ⟨hnodes, -, hgoes⟩ := hwalks 1 _ hone
  refine ⟨⟨_, hone, hnodes, hgoes (by simp)⟩, ⟨htwo, (hwalks 2 _ htwo).2.1 rfl⟩, ?_⟩
  have hread : Parser.unary none
      [⟨.identifier "a", 0⟩, ⟨.symbol .plus, 2⟩, ⟨.identifier "b", 4⟩] =
        .ok ⟨.var "a" (.byte 0), [⟨.symbol .plus, 2⟩, ⟨.identifier "b", 4⟩], by decide⟩ := by cbv
  have hright : Parser.unary none [⟨.identifier "b", 4⟩] =
      .ok ⟨.var "b" (.byte 4), [], by decide⟩ := by cbv
  obtain ⟨hheights, hstops⟩ := heights_agree.2 .additive _ _ _ hread
  have hfold : Folding.Fold .additive (Parser.unary none)
      ⟨.var "a" (.byte 0), (Expr.var "a" (.byte 0)).height,
        [⟨.symbol .plus, 2⟩, ⟨.identifier "b", 4⟩]⟩
      ⟨.binary .add (.var "a" (.byte 0)) (.var "b" (.byte 4)) (.byte 2), _, []⟩ :=
    .operator rfl hright (by simp [maxTreeHeight])
  exact ⟨_, hread, ⟨_, .single hfold, rfl, hheights _ (.single hfold)⟩, hstops⟩

end Reckon
