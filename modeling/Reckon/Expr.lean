import Reckon.Operator
import Reckon.Position
import Reckon.Value
/-!
# Expressions

The tree of an expression. Each node keeps the position at which its source has it; an operator
between operands stands for the whole of them.

* `Expr.height` — the number of nodes on the longest way down, found with a list of pending work
  in place of recursion, so that no tree is too deep for it;
* `Expr.same` — equality of trees, positions included.
-/

namespace Reckon

/-- An expression. -/
inductive Expr where
  /-- A constant. -/
  | literal (value : Value) (position : Position)
  /-- A variable, to be looked up by its name. -/
  | var (name : String) (position : Position)
  /-- A prefix operator and its operand. -/
  | unary (op : UnaryOp) (operand : Expr) (position : Position)
  /-- A binary operator between its operands. -/
  | binary (op : BinaryOp) (left right : Expr) (position : Position)
  /-- One of two branches, as the condition says. -/
  | conditional (condition yes no : Expr) (position : Position)
  /-- A function call. -/
  | call (name : String) (args : List Expr) (position : Position)

namespace Expr

/-- The position of the root. -/
def position : Expr → Position
  | literal _ p | var _ p | unary _ _ p | binary _ _ _ p | conditional _ _ _ p | call _ _ p => p

/-- The operands of the root, from left to right. -/
def children : Expr → List Expr
  | literal _ _ | var _ _ => []
  | unary _ operand _ => [operand]
  | binary _ left right _ => [left, right]
  | conditional condition yes no _ => [condition, yes, no]
  | call _ args _ => args

mutual

/-- The number of nodes. -/
def size : Expr → Nat
  | literal _ _ | var _ _ => 1
  | unary _ operand _ => operand.size + 1
  | binary _ left right _ => left.size + right.size + 1
  | conditional condition yes no _ => condition.size + yes.size + no.size + 1
  | call _ args _ => sizeAll args + 1

/-- The number of nodes of several expressions. -/
def sizeAll : List Expr → Nat
  | [] => 0
  | e :: es => e.size + sizeAll es

end

/-- A tree is its root and its operands. -/
theorem size_eq (e : Expr) : e.size = sizeAll e.children + 1 := by
  cases e <;> simp [size, children, sizeAll, Nat.add_assoc]

/-- The nodes of several expressions are counted in parts. -/
theorem sizeAll_append (as bs : List Expr) : sizeAll (as ++ bs) = sizeAll as + sizeAll bs := by
  induction as with
  | nil => simp [sizeAll]
  | cons a as ih => simp [sizeAll, ih, Nat.add_assoc]

/-- The greatest of `best` and the levels at which the pending trees end, when each tree is given
with the level of its root. -/
def deepest (best : Nat) : List (Expr × Nat) → Nat
  | [] => best
  | (e, level) :: pending =>
    deepest (max best level) (e.children.map (·, level + 1) ++ pending)
termination_by pending => sizeAll (pending.map (·.1))
decreasing_by
  have hsize := size_eq e
  simp only [List.map_append, List.map_map, Function.comp_def, List.map_id', sizeAll_append,
    List.map_cons, sizeAll]
  omega

/-- The number of nodes on the longest way from the root down. -/
def height (e : Expr) : Nat := deepest 0 [(e, 1)]

mutual

/-- Whether two trees agree, positions included. Numbers are compared as numbers, so that a tree
with one that is no number differs from itself. -/
def same : Expr → Expr → Bool
  | literal v p, literal w q => v.same w && p == q
  | var m p, var n q => m == n && p == q
  | unary f a p, unary g b q => f == g && a.same b && p == q
  | binary f a b p, binary g c d q => f == g && a.same c && b.same d && p == q
  | conditional a b c p, conditional d e f q => a.same d && b.same e && c.same f && p == q
  | call m as p, call n bs q => m == n && sameAll as bs && p == q
  | _, _ => false

/-- Whether two lists of trees agree. -/
def sameAll : List Expr → List Expr → Bool
  | [], [] => true
  | a :: as, b :: bs => a.same b && sameAll as bs
  | _, _ => false

end

end Expr

end Reckon
