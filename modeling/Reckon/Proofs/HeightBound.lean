import Mathlib
import Reckon.Compiled
import Reckon.Proofs.ParserExactness
/-!
# How high a parsed tree can be

A tree whose root is a binary operator has a limited height.  Above the topmost operators of a way
down stand prefix operators, calls and conditionals.  Each of them takes a nesting level from what
is inside it, with one exception: the condition of a conditional is parsed where the conditional
stands, and yet the conditional is a node above it.  So a tree is higher than the limit on operators
by at most its nesting and the conditions that a way down enters.

A conditional in a condition stands in parentheses or in a call, so that there are no more conditions
on a way than nesting levels.

* `conditionDepth` — the conditions that a way down enters before the first binary operator;
* `Derives.heightClaim` — the height of a derived tree;
* `compiled_height_le` — the height of the tree of a source.
-/

namespace Reckon

namespace Expr

mutual

/-- The most conditions that a way from the root down enters before it meets a binary operator. -/
def conditionDepth : Expr → Nat
  | literal _ _ | var _ _ | binary _ _ _ _ => 0
  | unary _ operand _ => operand.conditionDepth
  | conditional condition yes no _ =>
    max (condition.conditionDepth + 1) (max yes.conditionDepth no.conditionDepth)
  | call _ args _ => conditionDepthAll args

/-- The most conditions that a way down one of several trees enters. -/
def conditionDepthAll : List Expr → Nat
  | [] => 0
  | e :: es => max e.conditionDepth (conditionDepthAll es)

end

theorem conditionDepthAll_le_iff (es : List Expr) (n : Nat) :
    conditionDepthAll es ≤ n ↔ ∀ e ∈ es, e.conditionDepth ≤ n := by
  induction es with
  | nil => simp [conditionDepthAll]
  | cons e es ih => simp [conditionDepthAll, ih]

theorem conditionDepth_le_call (name : String) {args : List Expr} (p : Position) {a : Expr}
    (ha : a ∈ args) : a.conditionDepth ≤ (call name args p).conditionDepth :=
  (conditionDepthAll_le_iff args _).mp (Nat.le_refl _) a ha

theorem height_call_le_iff (name : String) (args : List Expr) (p : Position) (n : Nat) :
    (call name args p).height ≤ n + 1 ↔ ∀ a ∈ args, a.height ≤ n := by
  simp only [height_eq_longestPath]
  exact longestPath_le_iff (call name args p) n

/-- The tree is no higher than its nesting and its conditions allow above the limit on operators,
and enters at most the given number of conditions. -/
structure WithinNesting (limit nesting conditions : Nat) (e : Expr) : Prop where
  height_le : e.height ≤ limit + nesting + e.conditionDepth
  conditionDepth_le : e.conditionDepth ≤ conditions

variable {limit : Nat}

theorem WithinNesting.mono {e : Expr} {m n c d : Nat} (h : e.WithinNesting limit m c)
    (hmn : m ≤ n) (hcd : c ≤ d) : e.WithinNesting limit n d := by
  have hheight := h.height_le
  have hdepth := h.conditionDepth_le
  exact ⟨by omega, by omega⟩

/-- A tree with a binary operator at its root needs no nesting. -/
theorem withinNesting_binary {op : BinaryOp} {a b : Expr} {p : Position} {n c : Nat}
    (h : (binary op a b p).OperatorsWithin limit) : (binary op a b p).WithinNesting limit n c := by
  have hle := ((operatorsWithin_binary op a b p).mp h).1
  refine ⟨?_, by simp [conditionDepth]⟩
  rw [height_binary]
  omega

/-- A tree of height one needs none either. -/
theorem withinNesting_leaf {e : Expr} {n c : Nat} (hlimit : 0 < limit) (hheight : e.height = 1)
    (hdepth : e.conditionDepth = 0) : e.WithinNesting limit n c :=
  ⟨by omega, by omega⟩

theorem withinNesting_unary {op : UnaryOp} {a : Expr} {p : Position} {n c : Nat}
    (h : a.WithinNesting limit n c) : (unary op a p).WithinNesting limit (1 + n) c := by
  have hheight := h.height_le
  refine ⟨?_, by simpa [conditionDepth] using h.conditionDepth_le⟩
  rw [height_unary, conditionDepth]
  omega

/-- The arguments of a call are a nesting level further in. -/
theorem withinNesting_call {name : String} {args : List Expr} {p : Position} {n c : Nat}
    (h : ∀ a ∈ args, a.WithinNesting limit n c) :
    (call name args p).WithinNesting limit (1 + n) c := by
  constructor
  · have hsplit : limit + (1 + n) + (call name args p).conditionDepth =
        limit + n + (call name args p).conditionDepth + 1 := by omega
    rw [hsplit, height_call_le_iff]
    intro a ha
    have hheight := (h a ha).height_le
    have hdepth := conditionDepth_le_call name p ha
    omega
  · rw [conditionDepth, conditionDepthAll_le_iff]
    exact fun a ha => (h a ha).conditionDepth_le

/-- The branches of a conditional are a nesting level further in.  Its condition is not, but counts
as one. -/
theorem withinNesting_conditional {c y n : Expr} {p : Position} {k l m : Nat}
    (hc : c.WithinNesting limit k (k - 1)) (hy : y.WithinNesting limit l l)
    (hn : n.WithinNesting limit m m) :
    (conditional c y n p).WithinNesting limit (max k (1 + max l m)) (max k (1 + max l m)) := by
  obtain ⟨hcheight, hcdepth⟩ := hc
  obtain ⟨hyheight, hydepth⟩ := hy
  obtain ⟨hnheight, hndepth⟩ := hn
  constructor
  · rw [height_conditional, conditionDepth]
    omega
  · rw [conditionDepth]
    omega

end Expr

/-! ### Derived trees -/

/-- What a derivation of the phrase with nesting `n` says about the height of its tree.  A chain that
goes on gives a binary operator. -/
def Phrase.HeightClaim (limit : Nat) : Phrase → Expr → Nat → Prop
  | expression, e, n => e.WithinNesting limit n n
  | levels _, e, n | primary, e, n => e.WithinNesting limit n (n - 1)
  | chain _ _ left, e, _ => e = left ∨ ∃ op a b p, e = .binary op a b p
  | arguments name p given, e, n =>
    ∃ others, e = .call name (given ++ others) p ∧ ∀ a ∈ others, a.WithinNesting limit n n

/-- **The height of a derived tree.**  Its nesting and the conditions that it enters come on top of
the limit on operators. -/
theorem Derives.heightClaim {limit : Nat} (hlimit : 0 < limit) {g : Phrase} {xs : List Placed}
    {e : Expr} {n : Nat} (h : Derives g xs e n) (he : e.OperatorsWithin limit) :
    g.HeightClaim limit e n := by
  induction h with
  | plain _ ih => exact (ih he).mono (Nat.le_refl _) (Nat.sub_le _ _)
  | conditional _ _ _ ihc ihy ihn =>
      obtain ⟨hc, hy, hn⟩ := (Expr.operatorsWithin_conditional _ _ _ _).mp he
      exact Expr.withinNesting_conditional (ihc hc) (ihy hy) (ihn hn)
  | operand _ ih => exact ih he
  | prefixed _ _ ih =>
      have hinner := ih ((Expr.operatorsWithin_unary _ _ _).mp he)
      exact (Expr.withinNesting_unary hinner).mono (Nat.le_refl _) (by omega)
  | level _ others ihf iho =>
      rcases iho he with rfl | ⟨op, a, b, p, rfl⟩
      · exact (ihf he).mono (Nat.le_max_left _ _) (by omega)
      · exact Expr.withinNesting_binary he
  | done => exact .inl rfl
  | operator _ _ _ _ ih =>
      rcases ih he with rfl | hop
      · exact .inr ⟨_, _, _, _, rfl⟩
      · exact .inr hop
  | literal => exact Expr.withinNesting_leaf hlimit (Expr.height_literal _ _) rfl
  | var => exact Expr.withinNesting_leaf hlimit (Expr.height_var _ _) rfl
  | @emptyCall name p q r =>
      have hcall : (Expr.call name [] (.byte p)).WithinNesting limit (1 + 0) 0 :=
        Expr.withinNesting_call (by simp)
      exact hcall
  | call _ ih =>
      obtain ⟨others, rfl, hothers⟩ := ih he
      exact (Expr.withinNesting_call hothers).mono (Nat.le_refl _) (by omega)
  | group _ ih => exact (ih he).mono (by omega) (by omega)
  | lastArgument _ ih =>
      have hargs := (Expr.operatorsWithin_call _ _ _).mp he
      have hlast := ih (hargs _ (List.mem_append_right _ (List.mem_singleton_self _)))
      exact ⟨_, rfl, fun a ha => List.mem_singleton.mp ha ▸ hlast⟩
  | @argument name p given q xs ys a e m n _ others ih iho =>
      have hnext := ih (others.within_given he a (by simp))
      obtain ⟨more, rfl, hmore⟩ := iho he
      refine ⟨a :: more, by simp, fun b hb => ?_⟩
      rcases List.mem_cons.mp hb with rfl | hb
      · exact hnext.mono (Nat.le_max_left _ _) (Nat.le_max_left _ _)
      · exact (hmore b hb).mono (Nat.le_max_right _ _) (Nat.le_max_right _ _)

/-! ### Sources -/

/-- **The height of a parsed tree.**  It is at most the limit on operators and the limit on nesting
together, and a node for each condition that a way down enters before the first operator.  There are
no more such conditions than nesting levels.  So a tree in which no way enters two conditions is at
most one node higher than the two limits together. -/
theorem compiled_height_le {source : String} {collect : Bool} {c : Compiled}
    (h : compile source collect = .ok c) :
    c.expr.height ≤ 256 + 64 + c.expr.conditionDepth ∧ c.expr.conditionDepth ≤ 64 ∧
      (c.expr.conditionDepth ≤ 1 → c.expr.height ≤ 256 + 64 + 1) := by
  obtain ⟨_, hparse, _⟩ := compile_eq_ok_iff.mp h
  obtain ⟨n, hderives, hnesting, hwithin⟩ := derives_of_parseLexemes hparse
  have hnesting : n ≤ 64 := hnesting
  obtain ⟨hheight, hdepth⟩ : c.expr.WithinNesting 256 n n :=
    hderives.heightClaim (by decide) hwithin
  exact ⟨by omega, by omega, by omega⟩

/-- A condition with a conditional inside it counts as two. -/
theorem conditional_in_call_in_condition_height :
    ∃ c, compile "f(a ? b : c) ? d : e" false = .ok c ∧ c.expr.conditionDepth = 2 ∧
      c.expr.height ≤ 256 + 64 + 2 := by
  have hcompile : compile "f(a ? b : c) ? d : e" false =
      .ok ⟨.conditional
        (.call "f" [.conditional (.var "a" (.byte 2)) (.var "b" (.byte 6)) (.var "c" (.byte 10))
          (.byte 4)] (.byte 0))
        (.var "d" (.byte 15)) (.var "e" (.byte 19)) (.byte 13), none⟩ := by cbv
  exact ⟨_, hcompile, rfl, (compiled_height_le hcompile).1⟩

end Reckon
