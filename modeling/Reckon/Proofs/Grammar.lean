import Reckon.Expr.Parser
import Reckon.Proofs.TreeHeight
/-!
# The grammar of expressions

The documented grammar, over lexemes with their places:

    expression := or ( "?" expression ":" expression )?
    or, and, xor, equality, relational, additive, multiplicative
               := left-associative chains, each over the next one
    unary      := ( "-" | "!" | "not" ) unary | primary
    primary    := literal | name ( "(" ( expression ( "," expression )* )? ")" )?
                | "(" expression ")"

A derivation gives the tree of a list of lexemes and its nesting.  A repetition of the grammar is a
phrase of its own, which carries the tree to its left: what continues a chain carries the operand
that the chain has folded so far, and what continues a list of arguments carries the ones before it.
No limit is part of the grammar.

* `Derives` — a list of lexemes is a phrase, with its tree and its nesting;
* `Sentence` — a list of lexemes is an expression.
-/

namespace Reckon

/-- The binary operators of a level, each with every lexeme that spells it. -/
def Level.spellings : Level → List (Lexeme × BinaryOp)
  | .or => [(.symbol .barBar, .or), (.keyword .or, .or)]
  | .and => [(.symbol .ampAmp, .and), (.keyword .and, .and)]
  | .xor => [(.keyword .xor, .xor)]
  | .equality => [(.symbol .equalEqual, .equal), (.symbol .bangEqual, .notEqual)]
  | .relational =>
    [(.symbol .less, .less), (.symbol .greater, .greater), (.symbol .lessEqual, .lessEqual),
      (.symbol .greaterEqual, .greaterEqual), (.keyword .member, .member)]
  | .additive => [(.symbol .plus, .add), (.symbol .minus, .subtract)]
  | .multiplicative =>
    [(.symbol .star, .multiply), (.symbol .slash, .divide), (.symbol .percent, .modulo)]

/-- The prefix operators, each with every lexeme that spells it. -/
def UnaryOp.spellings : List (Lexeme × UnaryOp) :=
  [(.symbol .minus, .negate), (.symbol .bang, .not), (.keyword .not, .not)]

/-! ### Spellings -/

open Reckon.Parser

theorem level_of_mem_spellings {level : Level} {l : Lexeme} {op : BinaryOp}
    (h : (l, op) ∈ level.spellings) : op.level = level := by
  have hall : ∀ s ∈ level.spellings, s.2.level = level := by cases level <;> decide
  exact hall _ h

theorem binary?_eq_some_iff {l : Lexeme} {op : BinaryOp} :
    l.binary? = some op ↔ (l, op) ∈ op.level.spellings := by
  cases l with
  | keyword k =>
      cases k <;> cases op <;>
        simp [Lexeme.binary?, Keyword.binary?, Level.spellings, BinaryOp.level]
  | symbol s =>
      cases s <;> cases op <;>
        simp [Lexeme.binary?, Symbol.binary?, Level.spellings, BinaryOp.level]
  | _ => cases op <;> simp [Lexeme.binary?, Level.spellings, BinaryOp.level]

theorem operatorOf?_eq_some_iff {level : Level} {l : Lexeme} {op : BinaryOp} :
    operatorOf? level l = some op ↔ (l, op) ∈ level.spellings := by
  simp only [operatorOf?, Option.filter_eq_some_iff, binary?_eq_some_iff, decide_eq_true_eq]
  constructor
  · intro h
    obtain ⟨hmem, rfl⟩ := h
    exact hmem
  · intro h
    obtain rfl := level_of_mem_spellings h
    exact ⟨h, rfl⟩

/-- A lexeme spells binary operators of one level only. -/
theorem level_unique {k l : Level} {x : Lexeme} {f g : BinaryOp}
    (hf : (x, f) ∈ k.spellings) (hg : (x, g) ∈ l.spellings) : k = l := by
  obtain rfl := level_of_mem_spellings hf
  obtain rfl := level_of_mem_spellings hg
  rw [← binary?_eq_some_iff] at hf hg
  rw [Option.some.inj (hf.symm.trans hg)]

theorem unary?_eq_some_iff {l : Lexeme} {op : UnaryOp} :
    l.unary? = some op ↔ (l, op) ∈ UnaryOp.spellings := by
  cases l with
  | keyword k => cases k <;> cases op <;> simp [Lexeme.unary?, UnaryOp.spellings]
  | symbol s => cases s <;> cases op <;> simp [Lexeme.unary?, UnaryOp.spellings]
  | _ => simp [Lexeme.unary?, UnaryOp.spellings]

theorem not_binary_of_symbol {level : Level} {op : BinaryOp} {s : Symbol}
    (hs : s.binary? = none) : (.symbol s, op) ∉ level.spellings := by
  intro h
  obtain rfl := level_of_mem_spellings h
  rw [← binary?_eq_some_iff] at h
  exact absurd (hs.symm.trans h) (by simp)

/-! ### Derivations -/

/-- A part of the grammar. -/
inductive Phrase where
  /-- A whole expression. -/
  | expression
  /-- Chains of the given levels, the loosest first, over operands with their prefix operators. -/
  | levels (levels : List Level)
  /-- What continues a chain of `level` after the tree `left`, its operands being of the tighter
  levels. -/
  | chain (level : Level) (tighter : List Level) (left : Expr)
  /-- A literal, a variable, a call, or an expression in parentheses. -/
  | primary
  /-- What continues a call after the arguments `given`, up to its closing parenthesis. -/
  | arguments (name : String) (position : Position) (given : List Expr)

/-- `Derives g xs e n`: the lexemes `xs` are a phrase `g` with the tree `e`, in a derivation of
nesting `n`.  Parentheses, prefix operators, calls and the branches of a conditional nest; chains
and conditions do not. -/
inductive Derives : Phrase → List Placed → Expr → Nat → Prop
  | plain {xs : List Placed} {e : Expr} {n : Nat}
      (whole : Derives (.levels Level.loosestFirst) xs e n) :
      Derives .expression xs e n
  | conditional {cs ys ns : List Placed} {c y n : Expr} {k l m p q : Nat}
      (condition : Derives (.levels Level.loosestFirst) cs c k)
      (yes : Derives .expression ys y l) (no : Derives .expression ns n m) :
      Derives .expression
        (cs ++ ⟨.symbol .question, p⟩ :: (ys ++ ⟨.symbol .colon, q⟩ :: ns))
        (.conditional c y n (.byte p)) (max k (1 + max l m))
  | operand {xs : List Placed} {e : Expr} {n : Nat} (whole : Derives .primary xs e n) :
      Derives (.levels []) xs e n
  | prefixed {x : Placed} {xs : List Placed} {op : UnaryOp} {e : Expr} {n : Nat}
      (hop : (x.lexeme, op) ∈ UnaryOp.spellings) (inner : Derives (.levels []) xs e n) :
      Derives (.levels []) (x :: xs) (.unary op e x.position) (1 + n)
  | level {level : Level} {tighter : List Level} {xs ys : List Placed} {left e : Expr}
      {m n : Nat} (first : Derives (.levels tighter) xs left m)
      (others : Derives (.chain level tighter left) ys e n) :
      Derives (.levels (level :: tighter)) (xs ++ ys) e (max m n)
  | done {level : Level} {tighter : List Level} {left : Expr} :
      Derives (.chain level tighter left) [] left 0
  | operator {level : Level} {tighter : List Level} {left right e : Expr} {x : Placed}
      {op : BinaryOp} {xs ys : List Placed} {m n : Nat}
      (hop : (x.lexeme, op) ∈ level.spellings)
      (operand : Derives (.levels tighter) xs right m)
      (others : Derives (.chain level tighter (.binary op left right x.position)) ys e n) :
      Derives (.chain level tighter left) (x :: (xs ++ ys)) e (max m n)
  | literal {x : Placed} {v : Value} (hvalue : x.lexeme.literal? = some v) :
      Derives .primary [x] (.literal v x.position) 0
  | var {name : String} {p : Nat} :
      Derives .primary [⟨.identifier name, p⟩] (.var name (.byte p)) 0
  | emptyCall {name : String} {p q r : Nat} :
      Derives .primary
        [⟨.identifier name, p⟩, ⟨.symbol .openParen, q⟩, ⟨.symbol .closeParen, r⟩]
        (.call name [] (.byte p)) 1
  | call {name : String} {p q : Nat} {xs : List Placed} {e : Expr} {n : Nat}
      (args : Derives (.arguments name (.byte p) []) xs e n) :
      Derives .primary (⟨.identifier name, p⟩ :: ⟨.symbol .openParen, q⟩ :: xs) e (1 + n)
  | group {p q : Nat} {xs : List Placed} {e : Expr} {n : Nat}
      (inner : Derives .expression xs e n) :
      Derives .primary (⟨.symbol .openParen, p⟩ :: (xs ++ [⟨.symbol .closeParen, q⟩])) e (1 + n)
  | lastArgument {name : String} {p : Position} {given : List Expr} {q : Nat}
      {xs : List Placed} {a : Expr} {n : Nat} (last : Derives .expression xs a n) :
      Derives (.arguments name p given) (xs ++ [⟨.symbol .closeParen, q⟩])
        (.call name (given ++ [a]) p) n
  | argument {name : String} {p : Position} {given : List Expr} {q : Nat}
      {xs ys : List Placed} {a e : Expr} {m n : Nat} (next : Derives .expression xs a m)
      (others : Derives (.arguments name p (given ++ [a])) ys e n) :
      Derives (.arguments name p given) (xs ++ ⟨.symbol .comma, q⟩ :: ys) e (max m n)

/-- A primary phrase is a chain without operators, of any levels. -/
theorem Derives.of_primary {xs : List Placed} {e : Expr} {n : Nat} (h : Derives .primary xs e n)
    (ls : List Level) : Derives (.levels ls) xs e n := by
  induction ls with
  | nil => exact .operand h
  | cons level tighter ih => simpa using ih.level .done

/-- A list of lexemes is an expression, whatever its nesting and the places of the lexemes. -/
def Sentence (lexemes : List Lexeme) : Prop :=
  ∃ xs : List Placed, xs.map Placed.lexeme = lexemes ∧ ∃ e n, Derives .expression xs e n

end Reckon
