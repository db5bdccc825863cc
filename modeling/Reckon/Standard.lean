import Reckon.Number.Shortest
import Reckon.Value
/-!
# The standard functions

The functions of one or two numbers that every expression can call. A call reaches one of them if
the name and the number of arguments agree and all arguments are numbers; otherwise the call is the
host's, even if the name is one of the table.

How many arguments a function has is said twice: by its row of the table, where calls look for it,
and by the function itself, which counts what it is given before it takes its arguments out.

* `checkArity` — the check of a function that has a fixed number of arguments;
* `Standard.apply` — the value of a function, or the reason why it has none;
* `Standard.table` — the rows of the table, in the order in which they are listed;
* `Standard.call?` — a call, if it is one of a standard function.
-/

namespace Reckon

/-- The check of a function that has a fixed number of arguments. What comes after it relies on the
number. -/
def checkArity (name : String) (expected found : Nat) :
    Except EvalError (PLift (found = expected)) :=
  if h : found = expected then .ok ⟨h⟩ else .error (.argumentCount name expected found)

/-- A standard function of one number. -/
inductive UnaryFunction where
  | sqrt
  | sin
  | cos
  | tan
  | abs
  /-- The natural logarithm. -/
  | log
  | exp
  | floor
  | ceil
  /-- The nearest integer, a half away from zero. -/
  | round
deriving DecidableEq, Repr

/-- A standard function of two numbers. -/
inductive BinaryFunction where
  | min
  | max
  | pow
deriving DecidableEq, Repr

/-- A standard function. -/
inductive Standard where
  | unary (f : UnaryFunction)
  | binary (f : BinaryFunction)
deriving DecidableEq, Repr

/-- The name that the function has in its errors. -/
def UnaryFunction.name : UnaryFunction → String
  | sqrt => "sqrt"
  | sin => "sin"
  | cos => "cos"
  | tan => "tan"
  | abs => "abs"
  | log => "log"
  | exp => "exp"
  | floor => "floor"
  | ceil => "ceil"
  | round => "round"

/-- The value at a number. A negative number has no square root, and only a positive one has a
logarithm; what is no number is neither, and passes through. -/
def UnaryFunction.apply (f : UnaryFunction) (x : Number) : Except EvalError Number :=
  match f with
  | sqrt => if x < 0 then .error (.sqrtOfNegative x.plain) else .ok x.sqrt
  | log => if x ≤ 0 then .error (.logOfNonPositive x.plain) else .ok x.log
  | sin => .ok x.sin
  | cos => .ok x.cos
  | tan => .ok x.tan
  | abs => .ok x.abs
  | exp => .ok x.exp
  | floor => .ok x.floor
  | ceil => .ok x.ceil
  | round => .ok x.round

/-- The name that the function has in its errors. -/
def BinaryFunction.name : BinaryFunction → String
  | min => "min"
  | max => "max"
  | pow => "pow"

/-- The value at two numbers. There is no power where the result is no number though base and
exponent are. -/
def BinaryFunction.apply (f : BinaryFunction) (x y : Number) : Except EvalError Number :=
  match f with
  | min => .ok (x.smaller y)
  | max => .ok (x.larger y)
  | pow =>
    let power := Float.pow x y
    if power.isNaN ∧ ¬ x.isNaN ∧ ¬ y.isNaN then .error (.powNotReal x.plain y.plain)
    else .ok power

namespace Standard

/-- The name that the function has in its errors. -/
def name : Standard → String
  | unary f => f.name
  | binary f => f.name

/-- How many arguments the function takes out of what it is given. -/
def arity : Standard → Nat
  | unary _ => 1
  | binary _ => 2

/-- The value at as many numbers as the function has. -/
def applyCounted : (f : Standard) → (args : List Number) → args.length = f.arity →
    Except EvalError Number
  | unary f, [x], _ => f.apply x
  | binary f, [x, y], _ => f.apply x y

/-- The value at some numbers. It is an error if there are more or fewer than the function has. -/
def apply (f : Standard) (args : List Number) : Except EvalError Number := do
  let ⟨hcount⟩ ← checkArity f.name f.arity args.length
  f.applyCounted args hcount

/-! ### The table -/

/-- A row of the table: calls with this name and this number of arguments reach the function. -/
structure Row where
  name : String
  arity : Nat
  function : Standard
deriving DecidableEq, Repr

/-- The table, in its order. -/
def table : List Row :=
  [⟨"min", 2, binary .min⟩, ⟨"max", 2, binary .max⟩, ⟨"pow", 2, binary .pow⟩,
    ⟨"sqrt", 1, unary .sqrt⟩, ⟨"sin", 1, unary .sin⟩, ⟨"cos", 1, unary .cos⟩,
    ⟨"tan", 1, unary .tan⟩, ⟨"abs", 1, unary .abs⟩, ⟨"log", 1, unary .log⟩,
    ⟨"exp", 1, unary .exp⟩, ⟨"floor", 1, unary .floor⟩, ⟨"ceil", 1, unary .ceil⟩,
    ⟨"round", 1, unary .round⟩]

/-- The names of the standard functions, in the order of the table. -/
def names : List String := table.map Row.name

/-- Whether a name is one of the table. -/
def isStandard (name : String) : Bool := names.contains name

/-- The value as a number, if it is one already. -/
def numberOnly? : Value → Option Number
  | .number x => some x
  | _ => none

/-- The value of a call, if it is one of a standard function: the name and the number of arguments
agree, and all arguments are numbers. -/
def call? (name : String) (args : List Value) : Option (Except EvalError Value) := do
  let row ← table.find? fun row => row.name = name ∧ row.arity = args.length
  let numbers ← args.mapM numberOnly?
  return (row.function.apply numbers).map .number

end Standard

end Reckon
