import Reckon.EvalError
import Reckon.SyntaxError
/-!
# Failures

A source has no value for one of two reasons: it is no expression, or the expression cannot be
evaluated. Failures of both sorts fall into a few families, by which a host can sort them without
looking at the single errors.
-/

namespace Reckon

/-- Why a source has no value. -/
inductive Failure where
  /-- It is no expression. -/
  | inSource (error : SyntaxError)
  /-- The expression has no value. -/
  | inEvaluation (error : EvalError)
deriving DecidableEq, Repr

/-- A family of failures. -/
inductive FailureKind where
  | parse
  | runtime
  | type
  | domain
deriving DecidableEq, Repr

/-- The name of the family. -/
def FailureKind.name : FailureKind → String
  | parse => "parse error"
  | runtime => "runtime error"
  | type => "type error"
  | domain => "domain error"

/-- The family of an error of evaluation. Operands and arguments that are refused for what they are
have families of their own. -/
def EvalError.kind : EvalError → FailureKind
  | typeError _ => .type
  | domainError _ _ => .domain
  | _ => .runtime

namespace Failure

/-- The family of the failure. -/
def kind : Failure → FailureKind
  | inSource _ => .parse
  | inEvaluation e => e.kind

/-- The text of the failure, which is that of the error behind it. -/
def message : Failure → String
  | inSource e => e.message
  | inEvaluation e => e.message

end Failure

end Reckon
