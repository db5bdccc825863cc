import Reckon.Evaluation
import Reckon.Expr.Parser
import Reckon.Failure
import Reckon.Token
/-!
# Compiled expressions

A source is compiled once and evaluated as often as needed. Errors are reported in the order of the
source: where the scan ended early, a syntax error of what was scanned wins only if it lies before
the place where the scan ended.

* `compile` — a source as a tree, with its tokens if they are asked for;
* `calculate` — the value of a source, in one step.
-/

namespace Reckon

/-- An expression ready to be evaluated. -/
structure Compiled where
  expr : Expr
  /-- The tokens of the source, if they were asked for. -/
  tokens : Option (List Token)

namespace Compiled

/-- A tree that was built by hand. -/
def ofExpr (expr : Expr) : Compiled := ⟨expr, none⟩

/-- The value of the expression. -/
def evaluate (compiled : Compiled) : Dialogue Value := compiled.expr.evaluate

/-- Whether two lists of tokens look alike. -/
def sameTokens : List Token → List Token → Bool
  | [], [] => true
  | t :: ts, u :: us => t.same u && sameTokens ts us
  | _, _ => false

/-- Whether two compiled expressions agree, positions and collected tokens included. -/
def same (a b : Compiled) : Bool :=
  a.expr.same b.expr && match a.tokens, b.tokens with
    | none, none => true
    | some ts, some us => sameTokens ts us
    | _, _ => false

end Compiled

/-- The outcome of parsing what was scanned of a source, when the scan may have ended early. -/
def firstError (parsed : Except SyntaxError Expr) (scanError : Option SyntaxError) :
    Except SyntaxError Expr :=
  match parsed, scanError with
  | parsed, none => parsed
  | .ok _, some lexical => .error lexical
  | .error e, some lexical => .error (if e.before lexical then e else lexical)

/-- Compiles a source. -/
def compile (source : String) (collect : Bool) : Except SyntaxError Compiled := do
  let scanned := scan source collect
  let parsed := (parseLexemes scanned.lexemes).mapError (.resolveEnd (.byte source.utf8ByteSize))
  let expr ← firstError parsed scanned.error
  return ⟨expr, scanned.tokens⟩

/-- A source compiles iff nothing ended its scan and its lexemes are an expression. -/
theorem compile_eq_ok_iff {source : String} {collect : Bool} {c : Compiled} :
    compile source collect = .ok c ↔
      (scan source collect).error = none ∧
        parseLexemes (scan source collect).lexemes = .ok c.expr ∧
        (scan source collect).tokens = c.tokens := by
  obtain ⟨expr, tokens⟩ := c
  cases hparse : parseLexemes (scan source collect).lexemes with
  | error e =>
    obtain ⟨f, hf⟩ : ∃ f, compile source collect = .error f := by
      simp only [compile, hparse]
      cases (scan source collect).error <;> exact ⟨_, rfl⟩
    simp [hf]
  | ok e =>
    cases hscan : (scan source collect).error with
    | some lexical =>
      have hcompile : compile source collect = .error lexical := by
        simp only [compile, hparse, hscan]
        rfl
      simp [hcompile]
    | none =>
      have hcompile : compile source collect = .ok ⟨e, (scan source collect).tokens⟩ := by
        simp only [compile, hparse, hscan]
        rfl
      simp [hcompile]

/-- A source without a fault is what its lexemes are. -/
theorem compile_of_clean {source : String} {collect : Bool}
    (hscan : (scan source collect).error = none) :
    compile source collect =
      ((parseLexemes (scan source collect).lexemes).mapError
        (.resolveEnd (.byte source.utf8ByteSize))).map
          fun expr => ⟨expr, (scan source collect).tokens⟩ := by
  simp only [compile, hscan]
  cases parseLexemes (scan source collect).lexemes <;> rfl

/-- The value of a source, with its tokens if they are asked for. A source that is no expression
asks the host for nothing. -/
def calculate (host : Host) (source : String) (collect : Bool) :
    Transcript Failure (Value × Option (List Token)) :=
  match compile source collect with
  | .error e => ⟨.error (.inSource e), []⟩
  | .ok compiled =>
    let transcript := compiled.evaluate.run host
    ⟨(transcript.result.mapError .inEvaluation).map (·, compiled.tokens), transcript.requests⟩

end Reckon
