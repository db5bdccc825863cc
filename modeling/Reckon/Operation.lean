import Reckon.Text.Bytes
import Reckon.Value
/-!
# What the operators compute

The unary and the binary operators on values. Each family of binary operators has a function of its
own, which says what it does with any operator, and `BinaryOp.apply` sends an operator to its
family. Conjunction and disjunction have both operands here; where the right one is not always
evaluated is a matter of evaluation.
-/

namespace Reckon

/-- The value of a prefix operator. -/
def UnaryOp.apply (op : UnaryOp) (operand : Value) : Except EvalError Value :=
  match op with
  | negate => return .number (-(← operand.toNumber))
  | not => return .boolean (!operand.toBool)

namespace BinaryOp

/-- The number that an arithmetic operator computes. Division and remainder have no value for
either zero on the right. -/
def compute (op : BinaryOp) (x y : Number) : Except EvalError Number :=
  match op with
  | add => .ok (x + y)
  | subtract => .ok (x - y)
  | multiply => .ok (x * y)
  | divide => if y == 0 then .error .divisionByZero else .ok (x / y)
  | modulo => if y == 0 then .error .moduloByZero else .ok (x.remainder y)
  | _ => .error (.notArithmetic op)

/-- Arithmetic. The operands are read as numbers, the left one first, unless one of them is a
string that is to be added. -/
def arithmetic (op : BinaryOp) (left right : Value) : Except EvalError Value := do
  if op = .add ∧ (left.isString ∨ right.isString) then
    return .string (left.toText ++ right.toText)
  let x ← left.toNumber
  let y ← right.toNumber
  return .number (← op.compute x y)

/-- How the left value stands to the right one. Strings have the order of their bytes; a string and
another value have none, nor has what is no number. -/
def order (op : BinaryOp) (left right : Value) : Except EvalError (Option Ordering) := do
  match left, right with
  | .string s, .string t => return some (compare (Text.bytes s) (Text.bytes t))
  | .string _, _ => throw (.incomparable op left.typeName right.typeName)
  | _, .string _ => throw (.incomparable op left.typeName right.typeName)
  | _, _ => return (← left.toNumber).order? (← right.toNumber)

/-- Whether an ordering is one that the operator accepts. Any operator but the other three
comparisons accepts what `>=` does. -/
def accepts (op : BinaryOp) (o : Ordering) : Bool :=
  match op with
  | less => o = .lt
  | greater => o = .gt
  | lessEqual => o ≠ .gt
  | _ => o ≠ .lt

/-- Comparison by order. Where there is no order, every comparison is false. -/
def comparison (op : BinaryOp) (left right : Value) : Except EvalError Value := do
  return .boolean ((← op.order left right).any op.accepts)

/-- Equality, or its negation for `!=` alone. -/
def equality (op : BinaryOp) (left right : Value) : Value :=
  .boolean (if op = .notEqual then !left.equals right else left.equals right)

/-- Whether the left string occurs in the right one. -/
def membership (left right : Value) : Except EvalError Value :=
  match left, right with
  | .string s, .string t => .ok (.boolean (Text.occursIn (Text.bytes s) (Text.bytes t)))
  | _, _ => .error (.noMembership left.typeName right.typeName)

/-- Logic on two truth values. Any operator but `&&` and `||` is the exclusive one. -/
def logic (op : BinaryOp) (left right : Value) : Value :=
  .boolean <| match op with
    | and => left.toBool && right.toBool
    | or => left.toBool || right.toBool
    | _ => left.toBool ^^ right.toBool

/-- The value of a binary operator. -/
def apply (op : BinaryOp) (left right : Value) : Except EvalError Value :=
  match op with
  | add | subtract | multiply | divide | modulo => op.arithmetic left right
  | less | greater | lessEqual | greaterEqual => op.comparison left right
  | equal | notEqual => .ok (op.equality left right)
  | member => membership left right
  | and | or | xor => .ok (op.logic left right)

end BinaryOp

end Reckon
