import Reckon.Operator
/-!
# Errors of evaluation

Why an expression has no value. The operations of the language raise some of these, hosts may raise
any of them. The wording of all of them is here.
-/

namespace Reckon

/-- Why an expression has no value. -/
inductive EvalError where
  /-- The host has no variable of this name. -/
  | unknownVariable (name : String)
  /-- Neither the standard table nor the host has the function. -/
  | unknownFunction (name : String)
  /-- There is no host to ask for the variable. -/
  | noEnvironment (name : String)
  | divisionByZero
  | moduloByZero
  /-- An operand is of a type that the operation does not take. -/
  | typeError (details : String)
  /-- An argument lies outside the domain of a function. -/
  | domainError (function details : String)
  /-- A function was given the wrong number of arguments. -/
  | argumentCount (name : String) (expected found : Nat)
  /-- An operation was asked for something it does not do. -/
  | invalidArgument (details : String)
  /-- A failure of the host's own. -/
  | host (message : String)
deriving DecidableEq, Repr

namespace EvalError

/-- The text of the error. -/
def message : EvalError → String
  | unknownVariable name => s!"Runtime error: Unknown variable '{name}'."
  | unknownFunction name => s!"Runtime error: Unknown function '{name}'."
  | noEnvironment name =>
    s!"Runtime error: Variable '{name}' cannot be resolved without an environment."
  | divisionByZero => "Runtime error: Division by zero."
  | moduloByZero => "Runtime error: Modulo by zero."
  | typeError details => s!"Type error: {details}."
  | domainError function details => s!"Domain error: {function}: {details}."
  | argumentCount name expected found =>
    s!"Runtime error: '{name}' takes {expected} argument(s) but {found} were supplied."
  | invalidArgument details => s!"Runtime error: Invalid argument: {details}."
  | host message => s!"Runtime error: {message}"

/-! ### The errors that the operations raise -/

/-- The empty string is no number. -/
def emptyString : EvalError := typeError "Cannot convert empty string to number"

/-- The string is no numeral. -/
def notNumeral (text : String) : EvalError :=
  typeError s!"Cannot convert string '{text}' to number"

/-- A string is ordered only among strings. -/
def incomparable (op : BinaryOp) (left right : String) : EvalError :=
  typeError s!"Cannot compare {left} with {right} using {op.symbol}"

/-- Only a string occurs in something, and only in a string. -/
def noMembership (left right : String) : EvalError :=
  typeError s!"'in' requires two strings, found {left} and {right}"

/-- The operator does not compute with numbers. -/
def notArithmetic (op : BinaryOp) : EvalError :=
  invalidArgument s!"'{op.symbol}' is not an arithmetic operator"

/-- The logarithm has a positive argument, shown here as it is. -/
def logOfNonPositive (shown : String) : EvalError :=
  domainError "log" s!"logarithm of non-positive number {shown}"

/-- The square root has an argument that is not negative. -/
def sqrtOfNegative (shown : String) : EvalError :=
  domainError "sqrt" s!"square root of negative number {shown}"

/-- The power is no real number. -/
def powNotReal (base exponent : String) : EvalError :=
  domainError "pow" s!"{base} raised to {exponent} is not a real number"

end EvalError

end Reckon
