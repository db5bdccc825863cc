import Reckon.Dialogue
import Reckon.Expr
import Reckon.Operation
import Reckon.Standard
/-!
# Evaluation

The value of an expression, as a dialogue with a host. Operands and arguments are evaluated from
left to right, each once. The right operand of `&&` or `||` is evaluated only if the left one
leaves the result open, and only the branch of a conditional that the condition selects is. A call
goes to the standard table first, and to the host if it is not there.
-/

namespace Reckon

/-- The truth value of the left operand that decides a conjunction or a disjunction by itself. -/
def BinaryOp.decidedBy? : BinaryOp → Option Bool
  | .and => some false
  | .or => some true
  | _ => none

namespace Expr

mutual

/-- The value of the expression. -/
def evaluate : Expr → Dialogue Value
  | literal value _ => return value
  | var name _ => .request (.read name)
  | unary op operand _ => do
    let value ← operand.evaluate
    .ofExcept (op.apply value)
  | binary op left right _ => do
    let l ← left.evaluate
    match op.decidedBy? with
    | some decided =>
      if l.toBool = decided then return .boolean decided
      else do
        let r ← right.evaluate
        return .boolean r.toBool
    | none =>
      let r ← right.evaluate
      .ofExcept (op.apply l r)
  | conditional condition yes no _ => do
    let c ← condition.evaluate
    if c.toBool then yes.evaluate else no.evaluate
  | call name args _ => do
    let values ← evaluateAll args
    match Standard.call? name values with
    | some result => .ofExcept result
    | none => .request (.call name values)

/-- The values of several expressions, from left to right. -/
def evaluateAll : List Expr → Dialogue (List Value)
  | [] => return []
  | e :: es => do
    let value ← e.evaluate
    let values ← evaluateAll es
    return value :: values

end

end Expr

end Reckon
