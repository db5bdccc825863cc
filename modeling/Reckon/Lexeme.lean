import Reckon.Number.Shortest
import Reckon.Operator
import Reckon.Position
import Reckon.Text.Quoted
import Reckon.Value
/-!
# Lexemes

The pieces of which an expression is written: literals, names, keywords and symbols. Keyword and
symbol spellings of one operator are different lexemes that stand for the same operator.
-/

namespace Reckon

/-- A reserved word other than the two truth values. -/
inductive Keyword where
  | and
  | or
  | xor
  | not
  | member
deriving DecidableEq, Repr

/-- A punctuation mark. -/
inductive Symbol where
  | plus
  | minus
  | star
  | slash
  | percent
  | equalEqual
  | bangEqual
  | lessEqual
  | greaterEqual
  | less
  | greater
  | bang
  | ampAmp
  | barBar
  | question
  | colon
  | openParen
  | closeParen
  | comma
deriving DecidableEq, Repr

/-- A piece of which an expression is written. -/
inductive Lexeme where
  | number (x : Number)
  | boolean (b : Bool)
  /-- A string, its escapes resolved. -/
  | string (s : String)
  | identifier (name : String)
  | keyword (k : Keyword)
  | symbol (s : Symbol)
deriving DecidableEq

/-- The class of a token. -/
inductive TokenKind where
  | number
  | boolean
  | string
  | identifier
  | operator
  | parenthesis
  | comma
  | whitespace
  | unknown
deriving DecidableEq, Repr

/-- The name of the class. -/
def TokenKind.name : TokenKind → String
  | number => "number"
  | boolean => "boolean"
  | string => "string"
  | identifier => "identifier"
  | operator => "operator"
  | parenthesis => "parenthesis"
  | comma => "comma"
  | whitespace => "whitespace"
  | unknown => "unknown"

namespace Keyword

/-- All keywords. -/
def all : List Keyword := [and, or, xor, not, member]

/-- The word itself. -/
def spelling : Keyword → String
  | and => "and"
  | or => "or"
  | xor => "xor"
  | not => "not"
  | member => "in"

/-- The operator that the word stands for between operands. -/
def binary? : Keyword → Option BinaryOp
  | and => some .and
  | or => some .or
  | xor => some .xor
  | member => some .member
  | not => none

end Keyword

namespace Symbol

/-- The mark itself. -/
def spelling : Symbol → String
  | plus => "+"
  | minus => "-"
  | star => "*"
  | slash => "/"
  | percent => "%"
  | equalEqual => "=="
  | bangEqual => "!="
  | lessEqual => "<="
  | greaterEqual => ">="
  | less => "<"
  | greater => ">"
  | bang => "!"
  | ampAmp => "&&"
  | barBar => "||"
  | question => "?"
  | colon => ":"
  | openParen => "("
  | closeParen => ")"
  | comma => ","

/-- The operator that the mark stands for between operands. -/
def binary? : Symbol → Option BinaryOp
  | plus => some .add
  | minus => some .subtract
  | star => some .multiply
  | slash => some .divide
  | percent => some .modulo
  | equalEqual => some .equal
  | bangEqual => some .notEqual
  | lessEqual => some .lessEqual
  | greaterEqual => some .greaterEqual
  | less => some .less
  | greater => some .greater
  | ampAmp => some .and
  | barBar => some .or
  | bang | question | colon | openParen | closeParen | comma => none

/-- The class of the mark. -/
def kind : Symbol → TokenKind
  | openParen | closeParen => .parenthesis
  | comma => .comma
  | _ => .operator

end Symbol

namespace Lexeme

/-- The class of the lexeme. -/
def kind : Lexeme → TokenKind
  | number _ => .number
  | boolean _ => .boolean
  | string _ => .string
  | identifier _ => .identifier
  | keyword _ => .operator
  | symbol s => s.kind

/-- How messages show the lexeme. -/
def shown : Lexeme → String
  | number x => x.plain
  | boolean b => if b then "true" else "false"
  | string s => Text.quoted s
  | identifier name => name
  | keyword k => k.spelling
  | symbol s => s.spelling

/-- The operator that the lexeme stands for between operands. -/
def binary? : Lexeme → Option BinaryOp
  | keyword k => k.binary?
  | symbol s => s.binary?
  | _ => none

/-- The operator that the lexeme stands for before an operand. -/
def unary? : Lexeme → Option UnaryOp
  | symbol .minus => some .negate
  | symbol .bang | keyword .not => some .not
  | _ => none

/-- The value of a literal. -/
def literal? : Lexeme → Option Value
  | number x => some (.number x)
  | boolean b => some (.boolean b)
  | string s => some (.string s)
  | _ => none

end Lexeme

/-- A lexeme and the offset of its first byte. -/
structure Placed where
  lexeme : Lexeme
  start : Nat
deriving DecidableEq

/-- The position of the lexeme. -/
def Placed.position (p : Placed) : Position := .byte p.start

end Reckon
