import Mathlib.Tactic.Basic
import Reckon.Proofs.EvaluationOrder
/-!
# The laws of logic

Conjunction, disjunction and the other logical operators look at the truth values of their operands
only, and their own value is a truth value.  So what they do is told by dialogues that ask for truth
values, and the laws of logic are laws of such dialogues: they hold with all requests, in their
order, and with all errors.

* `Expr.Alike` — expressions that no host can tell apart;
* `Expr.truth` — the truth value of an expression, as a dialogue;
* `Expr.Decides` — the value is the truth value that a dialogue finds; two expressions with the same
  such dialogue are alike;
* `logic_has_its_laws` — associativity, De Morgan's laws, and logic as conditionals.
-/

open Reckon.Expr

namespace Reckon

/-- Two expressions that no host can tell apart: whatever it has been asked before, both ask the
same of it in the same order, and have the same value or the same error. -/
def Expr.Alike (e f : Expr) : Prop :=
  ∀ host earlier, e.evaluate.runAfter host earlier = f.evaluate.runAfter host earlier

/-! ### Truth values -/

/-- The truth value of an expression. -/
def Expr.truth (e : Expr) : Dialogue Bool := do
  let value ← e.evaluate
  return value.toBool

/-- The expression has a truth value for its value, and the dialogue finds it. -/
def Expr.Decides (e : Expr) (d : Dialogue Bool) : Prop :=
  e.evaluate = do
    let t ← d
    return .boolean t

namespace Expr.Decides

variable {e f : Expr} {d : Dialogue Bool}

theorem truth_eq (h : e.Decides d) : e.truth = d := by
  rw [Decides] at h
  simp [truth, h, Value.toBool]

/-- Two expressions for which the same dialogue finds the truth value are alike. -/
theorem alike {d' : Dialogue Bool} (he : e.Decides d) (hf : f.Decides d') (heq : d = d') :
    e.Alike f := by
  intro host earlier
  rw [he, hf, heq]

end Expr.Decides

section Nodes

variable (a b : Expr) (p : Position)

theorem decides_literal (t : Bool) : (literal (.boolean t) p).Decides (pure t) := by
  simp [Decides, evaluate]

theorem decides_not : (unary .not a p).Decides (do return !(← a.truth)) := by
  simp [Decides, evaluate, truth, UnaryOp.apply]
  rfl

theorem decides_and : (binary .and a b p).Decides (do
    if ← a.truth then b.truth else return false) := by
  simp only [Decides, evaluate, truth, BinaryOp.decidedBy?, bind_assoc, pure_bind]
  refine bind_congr fun l => ?_
  cases l.toBool <;> simp

theorem decides_or : (binary .or a b p).Decides (do
    if ← a.truth then return true else b.truth) := by
  simp only [Decides, evaluate, truth, BinaryOp.decidedBy?, bind_assoc, pure_bind]
  refine bind_congr fun l => ?_
  cases l.toBool <;> simp

theorem decides_xor : (binary .xor a b p).Decides (do
    let l ← a.truth
    let r ← b.truth
    return l ^^ r) := by
  simp [Decides, evaluate, truth, BinaryOp.decidedBy?, BinaryOp.apply, BinaryOp.logic]
  rfl

variable {y n : Expr} {d d' : Dialogue Bool}

theorem decides_conditional (hy : y.Decides d) (hn : n.Decides d') :
    (conditional a y n p).Decides (do if ← a.truth then d else d') := by
  rw [Decides] at hy hn
  simp only [Decides, evaluate, truth, bind_assoc, pure_bind]
  refine bind_congr fun l => ?_
  cases l.toBool <;> simp [hy, hn]

end Nodes

/-! ### The laws -/

section Laws

variable (a b c : Expr) (p q r s t : Position)

theorem and_assoc_alike : (binary .and a (binary .and b c q) p).Alike
    (binary .and (binary .and a b r) c s) := by
  refine (decides_and ..).alike (decides_and ..) ?_
  rw [(decides_and b c q).truth_eq, (decides_and a b r).truth_eq, bind_assoc]
  refine bind_congr fun l => ?_
  cases l <;> simp

theorem or_assoc_alike : (binary .or a (binary .or b c q) p).Alike
    (binary .or (binary .or a b r) c s) := by
  refine (decides_or ..).alike (decides_or ..) ?_
  rw [(decides_or b c q).truth_eq, (decides_or a b r).truth_eq, bind_assoc]
  refine bind_congr fun l => ?_
  cases l <;> simp

theorem xor_assoc_alike : (binary .xor (binary .xor a b q) c p).Alike
    (binary .xor a (binary .xor b c s) r) := by
  refine (decides_xor ..).alike (decides_xor ..) ?_
  rw [(decides_xor a b q).truth_eq, (decides_xor b c s).truth_eq]
  simp only [bind_assoc, pure_bind, Bool.xor_assoc]

theorem not_and_alike : (unary .not (binary .and a b p) q).Alike
    (binary .or (unary .not a r) (unary .not b s) t) := by
  refine (decides_not ..).alike (decides_or ..) ?_
  rw [(decides_and a b p).truth_eq, (decides_not a r).truth_eq, (decides_not b s).truth_eq,
    bind_assoc, bind_assoc]
  refine bind_congr fun l => ?_
  cases l <;> simp

theorem not_or_alike : (unary .not (binary .or a b p) q).Alike
    (binary .and (unary .not a r) (unary .not b s) t) := by
  refine (decides_not ..).alike (decides_and ..) ?_
  rw [(decides_or a b p).truth_eq, (decides_not a r).truth_eq, (decides_not b s).truth_eq,
    bind_assoc, bind_assoc]
  refine bind_congr fun l => ?_
  cases l <;> simp

theorem truth_conditional : (conditional a b c p).truth = (do
    if ← a.truth then b.truth else c.truth) := by
  simp only [truth, evaluate, bind_assoc, pure_bind]
  refine bind_congr fun l => ?_
  cases l.toBool <;> simp

theorem not_conditional_alike : (unary .not (conditional a b c p) q).Alike
    (conditional a (unary .not b r) (unary .not c s) t) := by
  refine (decides_not ..).alike (decides_conditional _ _ (decides_not b r) (decides_not c s)) ?_
  rw [truth_conditional, bind_assoc]
  refine bind_congr fun l => ?_
  cases l <;> simp

theorem and_conditional_alike : (binary .and a b p).Alike
    (conditional a (unary .not (unary .not b q) r) (literal (.boolean false) s) t) := by
  refine (decides_and ..).alike
    (decides_conditional _ _ (decides_not (unary .not b q) r) (decides_literal s false)) ?_
  rw [(decides_not b q).truth_eq]
  simp

theorem or_conditional_alike : (binary .or a b p).Alike
    (conditional a (literal (.boolean true) q) (unary .not (unary .not b r) s) t) := by
  refine (decides_or ..).alike
    (decides_conditional _ _ (decides_literal q true) (decides_not (unary .not b r) s)) ?_
  rw [(decides_not b r).truth_eq]
  simp

end Laws

/-! ### Both operands evaluated -/

/-- Where both operands have values, a conjunction or a disjunction has the value that the operator
has for both of them, whether the right one is looked at or not. -/
theorem yields_strict {host : Host} {h g k : List Request} {op : BinaryOp} {a b : Expr}
    {l r : Value} (hop : op = .and ∨ op = .or) (hl : Yields host h a l g)
    (hr : Yields host g b r k) (p : Position) :
    ∃ v m, Yields host h (binary op a b p) v m ∧ op.apply l r = .ok v := by
  have hvalue : ∃ v, op.apply l r = .ok v := by
    rcases hop with rfl | rfl <;> exact ⟨_, rfl⟩
  obtain ⟨v, hv⟩ := hvalue
  rw [Yields] at hl hr
  by_cases hdecided : op.decidedBy? = some l.toBool
  · have hleft : v = .boolean l.toBool := by
      rcases hop with rfl | rfl <;>
        simp_all [BinaryOp.decidedBy?, BinaryOp.apply, BinaryOp.logic]
    refine ⟨v, g, ?_, hv⟩
    rw [Yields, evaluate_binary, Dialogue.runAfter_bind_of_ok hl, if_pos hdecided, hleft]
    rfl
  · refine ⟨v, k, ?_, hv⟩
    rw [Yields, evaluate_binary, Dialogue.runAfter_bind_of_ok hl, if_neg hdecided,
      Dialogue.runAfter_bind_of_ok hr, hv]
    rfl

/-- **Logic has its laws,** with all requests and all errors.  Conjunction, disjunction and
exclusive disjunction are associative, a negation goes through a conjunction, a disjunction or a
conditional as it should, and conjunction and disjunction are conditionals: no host can tell one
side from the other.  And where both operands of a conjunction or a disjunction have values, its
value is the one that the operator has for both of them. -/
theorem logic_has_its_laws (a b c : Expr) (p q r s t : Position) :
    (binary .and a (binary .and b c q) p).Alike (binary .and (binary .and a b r) c s) ∧
    (binary .or a (binary .or b c q) p).Alike (binary .or (binary .or a b r) c s) ∧
    (unary .not (binary .and a b p) q).Alike
      (binary .or (unary .not a r) (unary .not b s) t) ∧
    (unary .not (binary .or a b p) q).Alike
      (binary .and (unary .not a r) (unary .not b s) t) ∧
    (unary .not (conditional a b c p) q).Alike
      (conditional a (unary .not b r) (unary .not c s) t) ∧
    (binary .and a b p).Alike
      (conditional a (unary .not (unary .not b q) r) (literal (.boolean false) s) t) ∧
    (binary .or a b p).Alike
      (conditional a (literal (.boolean true) q) (unary .not (unary .not b r) s) t) ∧
    (binary .xor (binary .xor a b q) c p).Alike (binary .xor a (binary .xor b c s) r) ∧
    ∀ (host : Host) (h g k : List Request) (op : BinaryOp) (left right : Value),
      (op = .and ∨ op = .or) → Yields host h a left g → Yields host g b right k →
        ∃ v m, Yields host h (binary op a b p) v m ∧ op.apply left right = .ok v :=
  ⟨and_assoc_alike a b c p q r s, or_assoc_alike a b c p q r s, not_and_alike a b p q r s t,
    not_or_alike a b p q r s t, not_conditional_alike a b c p q r s t,
    and_conditional_alike a b p q r s t, or_conditional_alike a b p q r s t,
    xor_assoc_alike a b c p q r s, fun _ _ _ _ _ _ _ hop hl hr => yields_strict hop hl hr p⟩

/-- A host that answers `yes` at first and `no` from then on makes `x && x` false, as the operator
is for its two answers. -/
theorem changed_answer_is_strict :
    let host : Host := ⟨fun earlier _ => .ok (.string (if earlier = [] then "yes" else "no"))⟩
    let x := var "x" (.byte 0)
    let asked := Request.read "x"
    Yields host [] x (.string "yes") [asked] ∧
      Yields host [asked] x (.string "no") [asked, asked] ∧
      ∃ v m, Yields host [] (binary .and x x (.byte 2)) v m ∧
        BinaryOp.and.apply (.string "yes") (.string "no") = .ok v := by
  intro host x asked
  have hfirst : Yields host [] x (.string "yes") [asked] := by
    simp [Yields, x, asked, host, evaluate]
  have hsecond : Yields host [asked] x (.string "no") [asked, asked] := by
    simp [Yields, x, asked, host, evaluate]
  obtain ⟨-, -, -, -, -, -, -, -, hstrict⟩ := logic_has_its_laws x x x (.byte 2) (.byte 0)
    (.byte 0) (.byte 0) (.byte 0)
  exact ⟨hfirst, hsecond, hstrict host [] [asked] [asked, asked] .and _ _ (.inl rfl) hfirst hsecond⟩

end Reckon
