/-!
# Operators

The operators of the language, how they are spelled, and how tightly the binary ones bind.
-/

namespace Reckon

/-- An operator with one operand, which it precedes. -/
inductive UnaryOp where
  /-- The negative of a number. -/
  | negate
  /-- The opposite of a truth value. -/
  | not
deriving DecidableEq, Repr

/-- An operator between two operands. -/
inductive BinaryOp where
  /-- Addition, or concatenation if an operand is a string. -/
  | add
  | subtract
  | multiply
  | divide
  /-- The remainder of a division. -/
  | modulo
  | less
  | greater
  | lessEqual
  | greaterEqual
  | equal
  | notEqual
  /-- Whether the left string occurs in the right one. -/
  | member
  /-- Whether exactly one operand is true. -/
  | xor
  | and
  | or
deriving DecidableEq, Repr

/-- A level of binary operators. -/
inductive Level where
  | or
  | and
  | xor
  | equality
  | relational
  | additive
  | multiplicative
deriving DecidableEq, Repr

/-- The levels from the loosest to the tightest. -/
def Level.loosestFirst : List Level :=
  [.or, .and, .xor, .equality, .relational, .additive, .multiplicative]

/-- The level and all tighter ones, the loosest of them first. -/
def Level.andTighter (level : Level) : List Level :=
  Level.loosestFirst.dropWhile (· ≠ level)

/-- The symbol by which the operator is shown. -/
def UnaryOp.symbol : UnaryOp → String
  | negate => "-"
  | not => "!"

namespace BinaryOp

/-- The symbol by which the operator is shown. -/
def symbol : BinaryOp → String
  | add => "+"
  | subtract => "-"
  | multiply => "*"
  | divide => "/"
  | modulo => "%"
  | less => "<"
  | greater => ">"
  | lessEqual => "<="
  | greaterEqual => ">="
  | equal => "=="
  | notEqual => "!="
  | member => "in"
  | xor => "xor"
  | and => "&&"
  | or => "||"

/-- The level to which the operator belongs. -/
def level : BinaryOp → Level
  | or => .or
  | and => .and
  | xor => .xor
  | equal | notEqual => .equality
  | less | greater | lessEqual | greaterEqual | member => .relational
  | add | subtract => .additive
  | multiply | divide | modulo => .multiplicative

end BinaryOp

end Reckon
