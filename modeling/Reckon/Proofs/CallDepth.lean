import Reckon.Proofs.ParserLocality
/-!
# How deep the calls of the parser go

Seven levels call down to an operand before a lexeme is read, and a lexeme that opens something
calls for a whole expression again.  Here the calls are open: `Goal.activation` says what a parser
does with the answers to its own calls, and `Goal.runWithin` lets a given number of activations
stand inside each other, so that a call which goes deeper has no answer.  Nothing about lexemes is
needed to define it.

An activation that has the answers of the goals that its own leads to comes back with the outcome of
its goal.  The lexemes of a goal and the rank of its phrase bound how deep the calls go.  The
operators of a chain and the arguments of a call, which are loops, count as calls as well.

* `Goal.activation_eq` — an activation asks for nothing but the goals that its own leads to;
* `Goal.runWithin_eq` — within a depth that is linear in the lexemes, the parser comes back.
-/

namespace Reckon

open Reckon.Parser

/-! ### Answers -/

/-- What a call comes back with, if it does. -/
abbrev Answer (α : Type) := ExceptT SyntaxError Option α

/-- The call comes back. -/
def returned {α : Type} (r : Except SyntaxError α) : Answer α := ExceptT.mk (some r)

/-- Steps that come back, each for what the one before it came back with, come back together. -/
theorem returned_bind {α β : Type} {r : Except SyntaxError α} {f : α → Except SyntaxError β}
    {g : α → Answer β} (h : ∀ a, r = .ok a → g a = returned (f a)) :
    (returned r >>= g) = returned (r >>= f) := by
  cases r with
  | error e => rfl
  | ok a => exact h a rfl

namespace Goal

/-! ### One activation -/

section Activation

variable (call : Goal → Answer (Expr × List Placed))

/-- After a condition: the branches of a conditional, or nothing. -/
def branches (b : Nat) (condition : Expr) : List Placed → Answer (Expr × List Placed)
  | ⟨.symbol .question, p⟩ :: xs => do
    let inner ← returned (within b (.byte p))
    let yes ← call ⟨inner, .expression, xs⟩
    let xs ← returned (after .colon .expectedColon yes.2)
    let no ← call ⟨inner, .expression, xs⟩
    returned (.ok (.conditional condition yes.1 no.1 (.byte p), no.2))
  | rest => returned (.ok (condition, rest))

/-- After the opening parenthesis of a call: its end, or its arguments. -/
def callArguments (b : Nat) (name : String) (p : Position) :
    List Placed → Answer (Expr × List Placed)
  | ⟨.symbol .closeParen, _⟩ :: rest => returned (.ok (.call name [] p, rest))
  | xs => call ⟨b, .arguments name p [], xs⟩

/-- After a name: the arguments of a call, or nothing. -/
def afterName (b : Nat) (name : String) (p : Position) :
    List Placed → Answer (Expr × List Placed)
  | ⟨.symbol .openParen, q⟩ :: xs => do
    let inner ← returned (within b (.byte q))
    callArguments call inner name p xs
  | rest => returned (.ok (.var name p, rest))

/-- After an argument: the next one, or the end of the call. -/
def afterArgument (b : Nat) (name : String) (p : Position) (given : List Expr) :
    List Placed → Answer (Expr × List Placed)
  | ⟨.symbol .comma, _⟩ :: xs => call ⟨b, .arguments name p given, xs⟩
  | xs => do
    let rest ← returned (after .closeParen .expectedClosingParen xs)
    returned (.ok (.call name given p, rest))

/-- What the parser does at a goal, when `call` is what its own calls come back with. -/
def activation : Goal → Answer (Expr × List Placed)
  | ⟨b, .expression, xs⟩ => do
    let condition ← call ⟨b, .levels Level.loosestFirst, xs⟩
    branches call b condition.1 condition.2
  | ⟨b, .levels (level :: tighter), xs⟩ => do
    let first ← call ⟨b, .levels tighter, xs⟩
    call ⟨b, .chain level tighter first.1, first.2⟩
  | ⟨b, .levels [], []⟩ => call ⟨b, .primary, []⟩
  | ⟨b, .levels [], x :: xs⟩ =>
    match x.lexeme.unary? with
    | some op => do
      let inner ← returned (within b x.position)
      let operand ← call ⟨inner, .levels [], xs⟩
      returned (.ok (.unary op operand.1 x.position, operand.2))
    | none => call ⟨b, .primary, x :: xs⟩
  | ⟨_, .chain _ _ left, []⟩ => returned (.ok (left, []))
  | ⟨b, .chain level tighter left, x :: xs⟩ =>
    match operatorOf? level x.lexeme with
    | none => returned (.ok (left, x :: xs))
    | some op => do
      let right ← call ⟨b, .levels tighter, xs⟩
      if maxTreeHeight < (Expr.binary op left right.1 x.position).height then
        returned (.error (.located .nestingTooDeep x.position))
      else call ⟨b, .chain level tighter (.binary op left right.1 x.position), right.2⟩
  | ⟨_, .primary, []⟩ => returned (.error (.located .unexpectedEnd .endOfInput))
  | ⟨b, .primary, x :: xs⟩ =>
    match x.lexeme with
    | .symbol .openParen => do
      let inner ← returned (within b x.position)
      let whole ← call ⟨inner, .expression, xs⟩
      let rest ← returned (after .closeParen .expectedClosingParen whole.2)
      returned (.ok (whole.1, rest))
    | .identifier name => afterName call b name x.position xs
    | other =>
      match other.literal? with
      | some v => returned (.ok (.literal v x.position, xs))
      | none => returned (.error (.located (.unexpectedToken other.shown) x.position))
  | ⟨b, .arguments name p given, xs⟩ => do
    let argument ← call ⟨b, .expression, xs⟩
    afterArgument call b name p (given ++ [argument.1]) argument.2

end Activation

/-! ### Activations with answers -/

section Answers

variable {call : Goal → Answer (Expr × List Placed)} {b : Nat} {xs : List Placed}

theorem activation_expression
    (h : ∀ k, Leads ⟨b, .expression, xs⟩ k → call k = returned k.outcome) :
    activation call ⟨b, .expression, xs⟩ = returned (Phrase.expression.read b xs) := by
  rw [activation, h _ .condition, Phrase.read_expression]
  refine returned_bind fun c hc => ?_
  obtain ⟨c, rest⟩ := c
  dsimp only
  unfold branches
  split
  · next p ys =>
    refine returned_bind fun inner hinner => ?_
    obtain rfl := within_eq_ok_iff.mp hinner
    rw [h _ (.yes hc)]
    refine returned_bind fun y hy => ?_
    obtain ⟨y, rest⟩ := y
    refine returned_bind fun zs hzs => ?_
    obtain ⟨q, rfl⟩ := after_eq_ok_iff.mp hzs
    rw [h _ (.no hc hy)]
    exact returned_bind fun n _ => rfl
  · next hnot => rw [Phrase.readBranches_of_ne (head?_ne_of_not_cons hnot)]

theorem activation_operand
    (h : ∀ k, Leads ⟨b, .levels [], xs⟩ k → call k = returned k.outcome) :
    activation call ⟨b, .levels [], xs⟩ = returned ((Phrase.levels []).read b xs) := by
  cases xs with
  | nil => exact h _ (.operand (by simp))
  | cons x xs =>
      rw [activation, Phrase.read_operand_cons]
      cases hop : x.lexeme.unary? with
      | none => exact h _ (.operand (by simpa using hop))
      | some op =>
          refine returned_bind fun inner hinner => ?_
          obtain rfl := within_eq_ok_iff.mp hinner
          rw [h _ (.prefixed (unary?_eq_some_iff.mp hop))]
          exact returned_bind fun a _ => rfl

theorem activation_level {level : Level} {tighter : List Level}
    (h : ∀ k, Leads ⟨b, .levels (level :: tighter), xs⟩ k → call k = returned k.outcome) :
    activation call ⟨b, .levels (level :: tighter), xs⟩ =
      returned ((Phrase.levels (level :: tighter)).read b xs) := by
  rw [activation, h _ .first, Phrase.read_level]
  exact returned_bind fun a ha => h _ (.others ha)

theorem activation_chain {level : Level} {tighter : List Level} {left : Expr}
    (h : ∀ k, Leads ⟨b, .chain level tighter left, xs⟩ k → call k = returned k.outcome) :
    activation call ⟨b, .chain level tighter left, xs⟩ =
      returned ((Phrase.chain level tighter left).read b xs) := by
  cases xs with
  | nil => rw [activation, Phrase.read_chain_nil]
  | cons x xs =>
      rw [activation, Phrase.read_chain_cons]
      cases hop : operatorOf? level x.lexeme with
      | none => rfl
      | some op =>
          have hop := operatorOf?_eq_some_iff.mp hop
          dsimp only
          rw [h _ (.right hop)]
          refine returned_bind fun right hright => ?_
          split
          · rfl
          · next hlow => exact h _ (.next hop hright (Nat.le_of_not_lt hlow))

theorem activation_primary
    (h : ∀ k, Leads ⟨b, .primary, xs⟩ k → call k = returned k.outcome) :
    activation call ⟨b, .primary, xs⟩ = returned (Phrase.primary.read b xs) := by
  cases xs with
  | nil => rfl
  | cons x xs =>
      obtain ⟨l, p⟩ := x
      rw [activation, Phrase.read_primary_cons]
      cases l with
      | identifier name =>
          dsimp only
          unfold afterName
          split
          · next q ys =>
            refine returned_bind fun inner hinner => ?_
            obtain rfl := within_eq_ok_iff.mp hinner
            unfold callArguments
            split
            · rfl
            · next hnot =>
              rw [Phrase.readArguments_of_ne (head?_ne_of_not_cons hnot)]
              exact h _ (.call (head?_ne_of_not_cons hnot))
          · next hnot => rw [Phrase.readNamed_of_ne (head?_ne_of_not_cons hnot)]
      | symbol s =>
          by_cases hs : s = .openParen
          · subst hs
            refine returned_bind fun inner hinner => ?_
            obtain rfl := within_eq_ok_iff.mp hinner
            rw [h _ .group]
            refine returned_bind fun whole _ => ?_
            exact returned_bind fun rest _ => rfl
          · cases s <;> first | exact absurd rfl hs | rfl
      | number | boolean | string | keyword => rfl

theorem activation_arguments {name : String} {p : Position} {given : List Expr}
    (h : ∀ k, Leads ⟨b, .arguments name p given, xs⟩ k → call k = returned k.outcome) :
    activation call ⟨b, .arguments name p given, xs⟩ =
      returned ((Phrase.arguments name p given).read b xs) := by
  rw [activation, h _ .argument, Phrase.read_arguments]
  refine returned_bind fun a ha => ?_
  obtain ⟨a, rest⟩ := a
  dsimp only
  unfold afterArgument
  split
  · exact h _ (.more ha)
  · next hnot =>
    rw [Phrase.readMore_of_ne (head?_ne_of_not_cons hnot)]
    exact returned_bind fun rest _ => rfl

/-- **One activation.**  With the answers of the goals that its own leads to, an activation comes
back with the outcome of its goal.  It makes no other calls. -/
theorem activation_eq {g : Goal} (h : ∀ k, g.Leads k → call k = returned k.outcome) :
    activation call g = returned g.outcome := by
  obtain ⟨b, phrase, xs⟩ := g
  cases phrase with
  | expression => exact activation_expression h
  | levels ls =>
      cases ls with
      | nil => exact activation_operand h
      | cons level tighter => exact activation_level h
  | chain level tighter left => exact activation_chain h
  | primary => exact activation_primary h
  | arguments name p given => exact activation_arguments h

end Answers

/-! ### Activations inside each other -/

/-- The parser with at most so many activations inside each other.  A call that goes deeper does not
come back. -/
def runWithin : Nat → Goal → Answer (Expr × List Placed)
  | 0, _ => ExceptT.mk none
  | n + 1, g => activation (runWithin n) g

/-- How deep the calls of a goal go at most, its own activation included. -/
def callDepth (g : Goal) : Nat :=
  g.input.length * (Level.loosestFirst.length + 4) + rank g.phrase + 1

/-- A phrase that fits has a rank below the step from one lexeme to the next. -/
theorem rank_lt {g : Phrase} (hfit : g.Fit) : rank g < Level.loosestFirst.length + 4 := by
  cases g with
  | levels ls =>
      have hlength := (show ls <:+ Level.loosestFirst from hfit).length_le
      simp only [rank]
      omega
  | _ => simp only [rank]; omega

/-- The goals that a goal leads to do not go as deep. -/
theorem Leads.callDepth_lt {g h : Goal} (hleads : g.Leads h) (hfit : g.phrase.Fit) :
    h.callDepth < g.callDepth := by
  have hrank := rank_lt (hleads.fit hfit)
  have hlt := hleads.measure_lt
  simp only [measure, Prod.Lex.toLex_lt_toLex] at hlt
  simp only [callDepth]
  rcases hlt with hshorter | ⟨hsame, hlower⟩
  · -- one lexeme fewer makes up for any rank
    have hstep := Nat.mul_le_mul_right (Level.loosestFirst.length + 4) hshorter
    rw [Nat.succ_mul] at hstep
    omega
  · rw [hsame]
    omega

/-- **Any number of activations.**  Within the depth of its calls, the parser comes back with the
outcome of the goal. -/
theorem runWithin_eq {n : Nat} {g : Goal} (hfit : g.phrase.Fit) (hdepth : g.callDepth ≤ n) :
    runWithin n g = returned g.outcome := by
  induction n generalizing g with
  | zero => exact absurd hdepth (by simp [callDepth])
  | succ n ih =>
      refine activation_eq fun k hleads => ih (hleads.fit hfit) ?_
      exact Nat.le_of_lt_succ (Nat.lt_of_lt_of_le (hleads.callDepth_lt hfit) hdepth)

end Goal

end Reckon
