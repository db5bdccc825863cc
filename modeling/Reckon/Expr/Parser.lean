import Reckon.Expr
import Reckon.Lexeme
import Reckon.SyntaxError
/-!
# Parsing

Lexemes are read as an expression by levels: a conditional, then seven levels of binary operators
that group to the left, then prefix operators, then literals, names, calls and parentheses. The
parser looks one lexeme ahead and never goes back.

Two limits keep trees shallow. A construct that nests (a parenthesis, an argument list, a prefix
operator, a branch of a conditional) takes one from a budget of nesting levels, and the parsers
inside it are made for what is left: all of them are built by recursion on the budget. An operator
that would make a tree too high is refused after its right operand.

A parser's result says by its type that something has been read, so that the loops over operators
and arguments end.

* `Parser` — what reads a value from the front of a list of lexemes;
* `chain` — a level of binary operators;
* `expression`, `binaryLevel` — the levels at a given depth;
* `parseLexemes` — an expression that takes all lexemes.
-/

namespace Reckon

/-- How many nesting levels an expression may have. -/
def maxNesting : Nat := 64

/-- The greatest height of a tree whose root is a binary operator. -/
def maxTreeHeight : Nat := 256

/-- A value read, and what is left of the lexemes: fewer than `bound`. -/
structure Parsed (α : Type) (bound : Nat) where
  value : α
  rest : List Placed
  rest_lt : rest.length < bound

namespace Parsed

/-- The same result under a greater bound. -/
def widen {α : Type} {m n : Nat} (parsed : Parsed α m) (h : m ≤ n) : Parsed α n :=
  ⟨parsed.value, parsed.rest, Nat.lt_of_lt_of_le parsed.rest_lt h⟩

/-- What is left after one more lexeme is under the same bound. -/
theorem rest_lt_of_cons {α : Type} {n : Nat} {parsed : Parsed α n} {x : Placed}
    {rest : List Placed} (h : parsed.rest = x :: rest) : rest.length < n := by
  have hlt := parsed.rest_lt
  rw [h, List.length_cons] at hlt
  omega

end Parsed

/-- What reads a value from the front of a list of lexemes, and at least one of them. -/
def Parser (α : Type) :=
  (input : List Placed) → Except SyntaxError (Parsed α input.length)

namespace Parser

/-- The error for a lexeme where `fault` says what is missing, or for the end of the input. -/
def missing (fault : Fault) : List Placed → SyntaxError
  | found :: _ => .located fault found.position
  | [] => .located fault .endOfInput

/-- Reads the symbol, and fails with the given fault if something else is there. -/
def expect (symbol : Symbol) (fault : Fault) : Parser Unit
  | [] => .error (missing fault [])
  | found :: rest =>
    if found.lexeme = .symbol symbol then .ok ⟨(), rest, Nat.lt_succ_self _⟩
    else .error (missing fault (found :: rest))

/-- The parsers that a nesting construct calls. They are one nesting level further in. -/
structure Inside where
  /-- An expression. -/
  expression : Parser Expr
  /-- An operand with its prefix operators. -/
  operand : Parser Expr

/-- The parsers inside a construct that opens at `position`, if the budget has one level left. -/
def enter (inside : Option Inside) (position : Position) : Except SyntaxError Inside :=
  match inside with
  | some parsers => .ok parsers
  | none => .error (.located .nestingTooDeep position)

/-! ### Operands -/

/-- The rest of a list of arguments, at least one of them, and the parenthesis that closes it. -/
def arguments (item : Parser Expr) (input : List Placed) :
    Except SyntaxError (Parsed (List Expr) input.length) := do
  let first ← item input
  match hrest : first.rest with
  | ⟨.symbol .comma, _⟩ :: rest =>
    have hlt : rest.length < input.length := Parsed.rest_lt_of_cons hrest
    let others ← arguments item rest
    return ⟨first.value :: others.value, others.rest, Nat.lt_trans others.rest_lt hlt⟩
  | _ =>
    let closed ← expect .closeParen .expectedClosingParen first.rest
    return ⟨[first.value], closed.rest, Nat.lt_trans closed.rest_lt first.rest_lt⟩
termination_by input.length

/-- A list of arguments after its opening parenthesis, which may be empty. -/
def argumentList (item : Parser Expr) : Parser (List Expr)
  | ⟨.symbol .closeParen, _⟩ :: rest => .ok ⟨[], rest, Nat.lt_succ_self _⟩
  | input => arguments item input

/-- An expression in parentheses after the opening one. -/
def grouping (item : Parser Expr) : Parser Expr := fun input => do
  let whole ← item input
  let closed ← expect .closeParen .expectedClosingParen whole.rest
  return ⟨whole.value, closed.rest, Nat.lt_trans closed.rest_lt whole.rest_lt⟩

/-- A variable or a call after its name. -/
def named (inside : Option Inside) (name : String) (position : Position) (input : List Placed) :
    Except SyntaxError (Parsed Expr (input.length + 1)) :=
  match input with
  | ⟨.symbol .openParen, start⟩ :: rest => do
    let inner ← enter inside (.byte start)
    let args ← argumentList inner.expression rest
    return ⟨.call name args.value position, args.rest,
      Nat.lt_trans args.rest_lt (Nat.lt_succ_of_lt (Nat.lt_succ_self _))⟩
  | rest => .ok ⟨.var name position, rest, Nat.lt_succ_self _⟩

/-- A literal, a variable, a call, or an expression in parentheses. -/
def primary (inside : Option Inside) : Parser Expr
  | [] => .error (.located .unexpectedEnd .endOfInput)
  | first :: rest =>
    match first.lexeme with
    | .symbol .openParen => do
      let inner ← enter inside first.position
      let whole ← grouping inner.expression rest
      return whole.widen (Nat.le_succ _)
    | .identifier name => named inside name first.position rest
    | other =>
      match other.literal? with
      | some value => .ok ⟨.literal value first.position, rest, Nat.lt_succ_self _⟩
      | none => .error (.located (.unexpectedToken other.shown) first.position)

/-- An operand with the prefix operators before it. -/
def unary (inside : Option Inside) : Parser Expr
  | [] => primary inside []
  | first :: rest =>
    match first.lexeme.unary? with
    | some op => do
      let inner ← enter inside first.position
      let operand ← inner.operand rest
      return ⟨.unary op operand.value first.position, operand.rest,
        Nat.lt_succ_of_lt operand.rest_lt⟩
    | none => primary inside (first :: rest)

/-! ### Binary operators -/

/-- The operator of this level that the lexeme stands for. -/
def operatorOf? (level : Level) (lexeme : Lexeme) : Option BinaryOp :=
  lexeme.binary?.filter (·.level = level)

/-- Extends the tree `left`, of the given height, by the operators of the level that follow, each
with its right operand. -/
def chainFrom (level : Level) (operand : Parser Expr) (left : Expr) (height : Nat)
    (input : List Placed) : Except SyntaxError (Parsed Expr (input.length + 1)) :=
  match input with
  | [] => .ok ⟨left, [], Nat.lt_succ_self _⟩
  | next :: rest =>
    match operatorOf? level next.lexeme with
    | none => .ok ⟨left, next :: rest, Nat.lt_succ_self _⟩
    | some op => do
      let right ← operand rest
      let taller := max height right.value.height + 1
      if maxTreeHeight < taller then .error (.located .nestingTooDeep next.position)
      else
        have hlt : right.rest.length < rest.length := right.rest_lt
        let whole ← chainFrom level operand (.binary op left right.value next.position) taller
          right.rest
        return whole.widen (Nat.succ_le_succ (Nat.le_trans (Nat.le_of_lt hlt) (Nat.le_succ _)))
termination_by input.length

/-- A level of binary operators, which group to the left. -/
def chain (level : Level) (operand : Parser Expr) : Parser Expr := fun input => do
  let first ← operand input
  let whole ← chainFrom level operand first.value first.value.height first.rest
  return whole.widen first.rest_lt

/-- The given levels of binary operators, the loosest first, over an operand. -/
def chains (operand : Parser Expr) : List Level → Parser Expr
  | [] => operand
  | level :: tighter => chain level (chains operand tighter)

/-! ### Expressions -/

/-- A condition and, after a question mark, the branches of a conditional. -/
def conditional (inside : Option Inside) (condition : Parser Expr) : Parser Expr := fun input => do
  let first ← condition input
  match hrest : first.rest with
  | ⟨.symbol .question, start⟩ :: rest =>
    let inner ← enter inside (.byte start)
    let yes ← inner.expression rest
    let colon ← expect .colon .expectedColon yes.rest
    let no ← inner.expression colon.rest
    have hlt : no.rest.length < input.length := by
      have h₁ := Parsed.rest_lt_of_cons hrest
      have h₂ := yes.rest_lt
      have h₃ := colon.rest_lt
      have h₄ := no.rest_lt
      omega
    return ⟨.conditional first.value yes.value no.value (.byte start), no.rest, hlt⟩
  | _ => return first

/-- An expression, given what its constructs call. -/
def expressionWith (inside : Option Inside) : Parser Expr :=
  conditional inside (chains (unary inside) Level.loosestFirst)

/-- The parsers inside a construct, if the budget of nesting levels allows one. -/
def insideOf : Nat → Option Inside
  | 0 => none
  | budget + 1 =>
    let inside := insideOf budget
    some { expression := expressionWith inside, operand := unary inside }

/-- What the constructs at a nesting depth may call. -/
def insideAt (depth : Nat) : Option Inside := insideOf (maxNesting - depth)

/-- An expression at a nesting depth. -/
def expression (depth : Nat) : Parser Expr := expressionWith (insideAt depth)

/-- The operators of a level and of all tighter ones, at a nesting depth. -/
def binaryLevel (level : Level) (depth : Nat) : Parser Expr :=
  chains (unary (insideAt depth)) level.andTighter

end Parser

/-- Reads an expression that takes all lexemes. -/
def parseLexemes (lexemes : List Placed) : Except SyntaxError Expr :=
  match lexemes with
  | [] => .error .emptyExpression
  | first :: others => do
    let whole ← Parser.expression 0 (first :: others)
    match whole.rest with
    | [] => return whole.value
    | next :: _ =>
      if next.lexeme = .symbol .closeParen then
        throw (.located .unmatchedClosingParen next.position)
      else throw (.located (.trailingTokens next.lexeme.shown) next.position)

end Reckon
