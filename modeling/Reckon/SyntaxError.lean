import Reckon.Position
/-!
# Errors in a source

Why a source is no expression. Every fault but one has a position: an empty source has nothing to
point at. A fault that is met after the last lexeme is first placed at the end of the input, and
gets an offset once the length of the source is known.
-/

namespace Reckon

/-- Why a piece of text is no lexeme. -/
inductive LexicalFault where
  /-- No lexeme starts with this character. -/
  | unexpectedCharacter (character : Char)
  /-- A string has no closing quote. -/
  | unterminatedString
  /-- A run of digits and points that is no number. -/
  | invalidNumber (literal : String)
deriving DecidableEq, Repr

/-- What is wrong at a position of a source. -/
inductive Fault where
  /-- A piece of text is no lexeme. -/
  | lexical (fault : LexicalFault)
  /-- The lexeme shown cannot stand where an operand is needed. -/
  | unexpectedToken (shown : String)
  /-- An operand is needed, and nothing is left. -/
  | unexpectedEnd
  /-- The lexeme shown follows a complete expression. -/
  | trailingTokens (shown : String)
  /-- An open parenthesis is not closed. -/
  | expectedClosingParen
  /-- A complete expression is followed by a closing parenthesis. -/
  | unmatchedClosingParen
  /-- The first branch of a conditional is not followed by a colon. -/
  | expectedColon
  /-- A construct opens one nesting level too many, or an operator makes a tree too high. -/
  | nestingTooDeep
deriving DecidableEq, Repr

/-- Why a source is no expression. -/
inductive SyntaxError where
  /-- The source is empty, or white space only. -/
  | emptyExpression
  /-- The fault, and where it is. -/
  | located (fault : Fault) (position : Position)
deriving DecidableEq, Repr

/-- The text of a lexical fault. -/
def LexicalFault.message : LexicalFault → String
  | unexpectedCharacter character => s!"Unexpected character '{character}'."
  | unterminatedString => "Unterminated string literal."
  | invalidNumber literal => s!"Invalid number format: {literal}."

namespace Fault

/-- The text of a fault. -/
def message : Fault → String
  | lexical fault => fault.message
  | unexpectedToken shown => s!"Unexpected token: {shown}."
  | unexpectedEnd => "Unexpected end of expression."
  | trailingTokens shown => s!"Extra input after expression: {shown}"
  | expectedClosingParen => "Expected closing parenthesis ')' but none found."
  | unmatchedClosingParen => "Closing parenthesis ')' has no matching '('."
  | expectedColon => "Expected ':' in ternary expression."
  | nestingTooDeep => "Expression is nested too deeply."

/-- Whether the fault is that something is missing. Only such a fault is met at the end. -/
def meetsEnd : Fault → Bool
  | unexpectedEnd | expectedClosingParen | expectedColon => true
  | _ => false

end Fault

namespace SyntaxError

/-- The position of the error, if it has one. -/
def position? : SyntaxError → Option Position
  | emptyExpression => none
  | located _ position => some position

/-- The text of the error. -/
def message : SyntaxError → String
  | emptyExpression => "Parse error: Expression is empty."
  | located fault position => s!"Parse error at {position.shown}: {fault.message}"

/-- The error with the end of the input at the given place. -/
def resolveEnd (place : Position) : SyntaxError → SyntaxError
  | located fault .endOfInput => located fault (if fault.meetsEnd then place else .endOfInput)
  | e => e

/-- Whether the error is placed before another one. -/
def before (e f : SyntaxError) : Bool :=
  match e.position?, f.position? with
  | some p, some q => p.before q
  | _, _ => false

end SyntaxError

end Reckon
