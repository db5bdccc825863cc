import Reckon.Proofs.TreeHeight
/-!
# Trees without their positions

A tree is written down in many places, and each place gives the same tree with other positions.
`Expr.unplaced` puts all positions at the end of the input, so that two trees are equal up to
positions when their unplaced trees are equal.  Heights do not look at positions.

* `Expr.induction` — induction on a tree, the arguments of a call included;
* `SameShape` — two trees are equal up to positions.
-/

namespace Reckon

namespace Expr

/-- Induction on a tree.  Among the arguments of a call, every one has the property. -/
theorem induction {P : Expr → Prop} (literal : ∀ v p, P (.literal v p))
    (var : ∀ name p, P (.var name p)) (unary : ∀ op a p, P a → P (.unary op a p))
    (binary : ∀ op a b p, P a → P b → P (.binary op a b p))
    (conditional : ∀ c y n p, P c → P y → P n → P (.conditional c y n p))
    (call : ∀ name args p, (∀ a ∈ args, P a) → P (.call name args p)) (e : Expr) : P e := by
  refine Expr.rec (motive_1 := P) (motive_2 := fun args => ∀ a ∈ args, P a) literal var unary binary
    conditional call ?_ ?_ e
  · intro a ha
    cases ha
  · intro a args ha hargs c hc
    rcases List.mem_cons.mp hc with hc | hc
    · exact hc ▸ ha
    · exact hargs c hc

mutual

/-- The tree with all its positions at the end of the input. -/
def unplaced : Expr → Expr
  | literal v _ => literal v .endOfInput
  | var name _ => var name .endOfInput
  | unary op a _ => unary op a.unplaced .endOfInput
  | binary op a b _ => binary op a.unplaced b.unplaced .endOfInput
  | conditional c y n _ => conditional c.unplaced y.unplaced n.unplaced .endOfInput
  | call name args _ => call name (unplacedAll args) .endOfInput

/-- Several trees with all their positions at the end of the input. -/
def unplacedAll : List Expr → List Expr
  | [] => []
  | e :: es => e.unplaced :: unplacedAll es

end

@[simp] theorem unplacedAll_eq_map (es : List Expr) : unplacedAll es = es.map unplaced := by
  induction es with
  | nil => rfl
  | cons e es ih => simp [unplacedAll, ih]

/-- Two trees are equal up to positions. -/
def SameShape (a b : Expr) : Prop := a.unplaced = b.unplaced

theorem longestPath_unplaced (e : Expr) : e.unplaced.longestPath = e.longestPath := by
  induction e using induction with
  | literal | var => rfl
  | unary op a p ha => simp [unplaced, longestPath, ha]
  | binary op a b p ha hb => simp [unplaced, longestPath, ha, hb]
  | conditional c y n p hc hy hn => simp [unplaced, longestPath, hc, hy, hn]
  | call name args p hargs =>
      have hle (n : Nat) : longestPathAll (args.map unplaced) ≤ n ↔ longestPathAll args ≤ n := by
        simp only [longestPathAll_le_iff, List.forall_mem_map]
        exact forall₂_congr fun a ha => by rw [hargs a ha]
      have heq : longestPathAll (args.map unplaced) = longestPathAll args :=
        Nat.le_antisymm ((hle _).mpr (Nat.le_refl _)) ((hle _).mp (Nat.le_refl _))
      simp [unplaced, longestPath, heq]

@[simp] theorem height_unplaced (e : Expr) : e.unplaced.height = e.height := by
  rw [height_eq_longestPath, height_eq_longestPath, longestPath_unplaced]

theorem operatorsWithin_unplaced {limit : Nat} (e : Expr) :
    e.unplaced.OperatorsWithin limit ↔ e.OperatorsWithin limit := by
  induction e using induction with
  | literal | var => simp [unplaced]
  | unary op a p ha => simp [unplaced, ha]
  | binary op a b p ha hb => simp [unplaced, ha, hb]
  | conditional c y n p hc hy hn => simp [unplaced, hc, hy, hn]
  | call name args p hargs =>
      simp only [unplaced, unplacedAll_eq_map, operatorsWithin_call, List.forall_mem_map]
      exact forall₂_congr hargs

/-- Trees that are equal up to positions keep the same limits on operators. -/
theorem SameShape.operatorsWithin_iff {limit : Nat} {a b : Expr} (h : a.SameShape b) :
    a.OperatorsWithin limit ↔ b.OperatorsWithin limit := by
  rw [← operatorsWithin_unplaced a, h, operatorsWithin_unplaced]

end Expr

end Reckon
