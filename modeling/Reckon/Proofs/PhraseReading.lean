import Reckon.Proofs.Grammar
/-!
# The parser, phrase by phrase

Each phrase of the grammar has a parser.  `Phrase.read` puts them side by side: a budget of nesting
levels, a phrase and a list of lexemes give a tree and the lexemes left, or an error.  The bound
that a parser's result carries is dropped here, so that every parser has an equation in terms of
the others, and one lemma (`read_rest_length`) keeps what the bound said.

* `read_expression`, `read_operand_cons`, `read_level`, `read_chain_cons`, `read_primary_cons`,
  `read_arguments` — the equations;
* `parseLexemes_eq` — the entry point in the same terms.
-/

namespace Reckon

open Reckon.Parser

/-! ### Steps of a parser -/

theorem ok_bind {ε α β : Type} (a : α) (f : α → Except ε β) : (Except.ok a >>= f) = f a := rfl

theorem error_bind {ε α β : Type} (e : ε) (f : α → Except ε β) :
    ((Except.error e : Except ε α) >>= f) = .error e := rfl

theorem bind_eq_ok_iff {ε α β : Type} {r : Except ε α} {f : α → Except ε β} {b : β} :
    (r >>= f) = .ok b ↔ ∃ a, r = .ok a ∧ f a = .ok b := by
  cases r <;> simp [ok_bind, error_bind]

theorem bind_eq_error_iff {ε α β : Type} {r : Except ε α} {f : α → Except ε β} {e : ε} :
    (r >>= f) = .error e ↔ r = .error e ∨ ∃ a, r = .ok a ∧ f a = .error e := by
  cases r <;> simp [ok_bind, error_bind]

/-- The value and the rest, without the proof that the rest is shorter. -/
def Parsed.pair {α : Type} {n : Nat} (parsed : Parsed α n) : α × List Placed :=
  (parsed.value, parsed.rest)

/-- What follows the given symbol, which has to be the next lexeme. -/
def after (symbol : Symbol) (fault : Fault) : List Placed → Except SyntaxError (List Placed)
  | [] => .error (missing fault [])
  | x :: rest =>
    if x.lexeme = .symbol symbol then .ok rest else .error (missing fault (x :: rest))

theorem expect_eq_after (symbol : Symbol) (fault : Fault) (xs : List Placed) :
    (expect symbol fault xs).map (fun r => r.rest) = after symbol fault xs := by
  cases xs with
  | nil => rfl
  | cons x rest =>
      simp only [expect, after]
      split <;> rfl

theorem after_eq_ok_iff {symbol : Symbol} {fault : Fault} {xs rest : List Placed} :
    after symbol fault xs = .ok rest ↔ ∃ p, xs = ⟨.symbol symbol, p⟩ :: rest := by
  cases xs with
  | nil => simp [after]
  | cons x xs =>
      obtain ⟨l, p⟩ := x
      by_cases hl : l = .symbol symbol <;> simp [after, hl]

theorem after_eq_error_iff {symbol : Symbol} {fault : Fault} {xs : List Placed} {e : SyntaxError} :
    after symbol fault xs = .error e ↔
      (∀ x ∈ xs.head?, x.lexeme ≠ .symbol symbol) ∧ e = missing fault xs := by
  cases xs with
  | nil => simp [after, eq_comm]
  | cons x xs => by_cases hl : x.lexeme = .symbol symbol <;> simp [after, hl, eq_comm]

/-- The budget one nesting level further in. -/
def within (budget : Nat) (p : Position) : Except SyntaxError Nat :=
  match budget with
  | 0 => .error (.located .nestingTooDeep p)
  | budget + 1 => .ok budget

theorem within_eq_ok_iff {budget inner : Nat} {p : Position} :
    within budget p = .ok inner ↔ budget = inner + 1 := by
  cases budget <;> simp [within]

/-- A list that no lexeme of the given sort starts. -/
theorem head?_ne_of_not_cons {xs : List Placed} {l : Lexeme}
    (h : ∀ p ys, xs = ⟨l, p⟩ :: ys → False) : ∀ x ∈ xs.head?, x.lexeme ≠ l := by
  intro x hx hl
  obtain ⟨ys, rfl⟩ := List.head?_eq_some_iff.mp hx
  exact h x.start ys (by rw [← hl])

namespace Phrase

/-- Reads a phrase from the front of a list of lexemes, with a budget of nesting levels. -/
def read (budget : Nat) : Phrase → List Placed → Except SyntaxError (Expr × List Placed)
  | expression, xs => (expressionWith (insideOf budget) xs).map Parsed.pair
  | levels ls, xs => (chains (unary (insideOf budget)) ls xs).map Parsed.pair
  | chain level tighter left, xs =>
    (chainFrom level (chains (unary (insideOf budget)) tighter) left left.height xs).map
      Parsed.pair
  | primary, xs => (Parser.primary (insideOf budget) xs).map Parsed.pair
  | arguments name p given, xs =>
    (Parser.arguments (expressionWith (insideOf budget)) xs).map fun r =>
      (.call name (given ++ r.value) p, r.rest)

variable (b : Nat)

/-! ### Expressions -/

/-- What follows a condition: the branches of a conditional, or nothing. -/
def readBranches (condition : Expr) : List Placed → Except SyntaxError (Expr × List Placed)
  | ⟨.symbol .question, p⟩ :: xs => do
    let inner ← within b (.byte p)
    let yes ← expression.read inner xs
    let xs ← after .colon .expectedColon yes.2
    let no ← expression.read inner xs
    return (.conditional condition yes.1 no.1 (.byte p), no.2)
  | rest => .ok (condition, rest)

/-- What is no question mark leaves a condition as it is. -/
theorem readBranches_of_ne {b : Nat} {c : Expr} {xs : List Placed}
    (h : ∀ x ∈ xs.head?, x.lexeme ≠ .symbol .question) :
    readBranches b c xs = .ok (c, xs) := by
  unfold readBranches
  split
  · exact absurd rfl (h _ rfl)
  · rfl

theorem read_expression (xs : List Placed) :
    expression.read b xs =
      (levels Level.loosestFirst).read b xs >>= fun c => readBranches b c.1 c.2 := by
  simp only [read, expressionWith, conditional, bind, Except.bind]
  cases chains (unary (insideOf b)) Level.loosestFirst xs with
  | error e => rfl
  | ok c =>
      obtain ⟨c, rest, hlt⟩ := c
      change Except.map Parsed.pair _ = readBranches b c rest
      dsimp only
      split
      · next start rest =>
        cases b with
        | zero => rfl
        | succ b =>
            simp only [insideOf, enter, readBranches, within, bind, Except.bind,
              ← expect_eq_after, read]
            cases expressionWith (insideOf b) rest with
            | error => rfl
            | ok yes =>
                simp only [Except.map, Parsed.pair]
                cases expect .colon .expectedColon yes.rest with
                | error => rfl
                | ok colon =>
                    dsimp only
                    cases expressionWith (insideOf b) colon.rest <;> rfl
      · simp [readBranches, Except.map, Parsed.pair, pure, Except.pure]

/-! ### Levels of binary operators -/

theorem read_level (level : Level) (tighter : List Level) (xs : List Placed) :
    (levels (level :: tighter)).read b xs =
      (levels tighter).read b xs >>= fun a => (chain level tighter a.1).read b a.2 := by
  simp only [read, chains, Parser.chain, bind, Except.bind]
  cases chains (unary (insideOf b)) tighter xs with
  | error => rfl
  | ok a =>
      simp only [Except.map, Parsed.pair]
      cases chainFrom level (chains (unary (insideOf b)) tighter) a.value a.value.height
        a.rest <;> rfl

theorem read_chain_nil (level : Level) (tighter : List Level) (left : Expr) :
    (chain level tighter left).read b [] = .ok (left, []) := by
  simp [read, chainFrom, Except.map, Parsed.pair]

theorem read_chain_cons (level : Level) (tighter : List Level) (left : Expr) (x : Placed)
    (xs : List Placed) :
    (chain level tighter left).read b (x :: xs) =
      match operatorOf? level x.lexeme with
      | none => .ok (left, x :: xs)
      | some op =>
        (levels tighter).read b xs >>= fun a =>
          if maxTreeHeight < (Expr.binary op left a.1 x.position).height then
            .error (.located .nestingTooDeep x.position)
          else (chain level tighter (.binary op left a.1 x.position)).read b a.2 := by
  simp only [read, chainFrom]
  cases operatorOf? level x.lexeme with
  | none => rfl
  | some op =>
      simp only [bind, Except.bind]
      cases chains (unary (insideOf b)) tighter xs with
      | error => rfl
      | ok a =>
          simp only [Except.map, Parsed.pair, Expr.height_binary]
          by_cases htall : maxTreeHeight < max left.height a.value.height + 1
          · simp only [if_pos htall]
          · simp only [if_neg htall]
            cases chainFrom level (chains (unary (insideOf b)) tighter)
              (.binary op left a.value x.position) (max left.height a.value.height + 1)
              a.rest <;> rfl

/-- An operator of the level reads its right operand and goes on. -/
theorem read_chain_operator {b : Nat} {level : Level} {tighter : List Level} {left : Expr} {x : Placed}
    {op : BinaryOp} (hop : (x.lexeme, op) ∈ level.spellings) (xs : List Placed) :
    (chain level tighter left).read b (x :: xs) =
      (levels tighter).read b xs >>= fun a =>
        if maxTreeHeight < (Expr.binary op left a.1 x.position).height then
          .error (.located .nestingTooDeep x.position)
        else (chain level tighter (.binary op left a.1 x.position)).read b a.2 := by
  rw [read_chain_cons, operatorOf?_eq_some_iff.mpr hop]

/-! ### Operands -/

theorem read_operand_cons (x : Placed) (xs : List Placed) :
    (levels []).read b (x :: xs) =
      match x.lexeme.unary? with
      | some op => do
        let inner ← within b x.position
        let a ← (levels []).read inner xs
        return (.unary op a.1 x.position, a.2)
      | none => primary.read b (x :: xs) := by
  simp only [read, chains]
  rw [unary]
  cases x.lexeme.unary? with
  | none => rfl
  | some op =>
      cases b with
      | zero => rfl
      | succ b =>
          simp only [insideOf, enter, within, bind, Except.bind]
          cases unary (insideOf b) xs <;> rfl

/-- A prefix operator reads its operand one nesting level further in. -/
theorem read_prefixed {b : Nat} {x : Placed} {op : UnaryOp} (hop : (x.lexeme, op) ∈ UnaryOp.spellings)
    (xs : List Placed) :
    (levels []).read b (x :: xs) = (within b x.position >>= fun inner =>
      (levels []).read inner xs >>= fun a => .ok (.unary op a.1 x.position, a.2)) := by
  rw [read_operand_cons, unary?_eq_some_iff.mpr hop]
  rfl

/-- What starts with no prefix operator is read as a primary phrase. -/
theorem read_operand_of_none {b : Nat} {xs : List Placed}
    (hop : ∀ x ∈ xs.head?, x.lexeme.unary? = none) :
    (levels []).read b xs = primary.read b xs := by
  cases xs with
  | nil => rfl
  | cons x xs => rw [read_operand_cons, hop x rfl]

/-- What follows the opening parenthesis of a call. -/
def readArguments (name : String) (p : Position) :
    List Placed → Except SyntaxError (Expr × List Placed)
  | ⟨.symbol .closeParen, _⟩ :: rest => .ok (.call name [] p, rest)
  | xs => (arguments name p []).read b xs

/-- What does not close a call at once starts its first argument. -/
theorem readArguments_of_ne {b : Nat} {name : String} {p : Position} {xs : List Placed}
    (hargs : ∀ x ∈ xs.head?, x.lexeme ≠ .symbol .closeParen) :
    readArguments b name p xs = (arguments name p []).read b xs := by
  unfold readArguments
  split
  · next q rest => exact absurd rfl (hargs ⟨.symbol .closeParen, q⟩ rfl)
  · rfl

/-- What follows a name: the arguments of a call, or nothing. -/
def readNamed (name : String) (p : Position) :
    List Placed → Except SyntaxError (Expr × List Placed)
  | ⟨.symbol .openParen, q⟩ :: xs => do
    let inner ← within b (.byte q)
    readArguments inner name p xs
  | rest => .ok (.var name p, rest)

/-- What opens no arguments leaves a name as it is. -/
theorem readNamed_of_ne {b : Nat} {name : String} {p : Position} {xs : List Placed}
    (h : ∀ x ∈ xs.head?, x.lexeme ≠ .symbol .openParen) :
    readNamed b name p xs = .ok (.var name p, xs) := by
  unfold readNamed
  split
  · exact absurd rfl (h _ rfl)
  · rfl

theorem argumentList_eq (name : String) (p : Position) (xs : List Placed) :
    (argumentList (expressionWith (insideOf b)) xs).map
      (fun r => (Expr.call name r.value p, r.rest)) = readArguments b name p xs := by
  unfold argumentList readArguments
  split
  · rfl
  · simp only [read, List.nil_append]

theorem named_eq (name : String) (p : Position) (xs : List Placed) :
    (named (insideOf b) name p xs).map Parsed.pair = readNamed b name p xs := by
  unfold named readNamed
  split
  · next q xs =>
    cases b with
    | zero => rfl
    | succ b =>
        simp only [insideOf, enter, within, bind, Except.bind, ← argumentList_eq]
        cases argumentList (expressionWith (insideOf b)) xs <;> rfl
  · simp [Except.map, Parsed.pair]

theorem read_primary_cons (x : Placed) (xs : List Placed) :
    primary.read b (x :: xs) =
      match x.lexeme with
      | .symbol .openParen => do
        let inner ← within b x.position
        let whole ← expression.read inner xs
        let rest ← after .closeParen .expectedClosingParen whole.2
        return (whole.1, rest)
      | .identifier name => readNamed b name x.position xs
      | other =>
        match other.literal? with
        | some v => .ok (.literal v x.position, xs)
        | none => .error (.located (.unexpectedToken other.shown) x.position) := by
  obtain ⟨l, p⟩ := x
  cases l with
  | identifier name => exact named_eq b name (.byte p) xs
  | symbol s =>
      by_cases hs : s = .openParen
      · subst hs
        cases b with
        | zero => rfl
        | succ b =>
            simp only [read, Parser.primary, insideOf, enter, within, bind, Except.bind, grouping,
              ← expect_eq_after]
            cases expressionWith (insideOf b) xs with
            | error => rfl
            | ok whole =>
                simp only [Except.map, Parsed.pair]
                cases expect .closeParen .expectedClosingParen whole.rest <;> rfl
      · cases s <;> first | exact absurd rfl hs | rfl
  | number | boolean | string | keyword => rfl

/-- What follows an argument: another one, or the end of the call. -/
def readMore (name : String) (p : Position) (given : List Expr) :
    List Placed → Except SyntaxError (Expr × List Placed)
  | ⟨.symbol .comma, _⟩ :: xs => (arguments name p given).read b xs
  | xs => do
    let rest ← after .closeParen .expectedClosingParen xs
    return (.call name given p, rest)

/-- What is no comma has to close the call. -/
theorem readMore_of_ne {b : Nat} {name : String} {p : Position} {given : List Expr}
    {xs : List Placed} (h : ∀ x ∈ xs.head?, x.lexeme ≠ .symbol .comma) :
    readMore b name p given xs = (after .closeParen .expectedClosingParen xs >>= fun rest =>
      .ok (.call name given p, rest)) := by
  unfold readMore
  split
  · exact absurd rfl (h _ rfl)
  · rfl

theorem read_arguments (name : String) (p : Position) (given : List Expr) (xs : List Placed) :
    (arguments name p given).read b xs =
      expression.read b xs >>= fun a => readMore b name p (given ++ [a.1]) a.2 := by
  simp only [read]
  rw [Parser.arguments]
  cases expressionWith (insideOf b) xs with
  | error => rfl
  | ok a =>
      obtain ⟨a, rest, hlt⟩ := a
      change Except.map _ (Except.bind (Except.ok _) _) = readMore b name p (given ++ [a]) rest
      simp only [bind, Except.bind]
      split
      · next others =>
        simp only [readMore, read, List.append_assoc, List.singleton_append]
        cases Parser.arguments (expressionWith (insideOf b)) others <;> rfl
      · simp only [readMore, bind, Except.bind, ← expect_eq_after]
        cases expect .closeParen .expectedClosingParen rest <;> rfl

/-! ### What is read -/

section Cases

variable {b : Nat} {e : Expr} {xs rest : List Placed}

/-- After a condition, nothing more is read, or the branches of a conditional are. -/
theorem readBranches_cases {c : Expr} (h : readBranches b c xs = .ok (e, rest)) :
    (∀ x ∈ xs.head?, x.lexeme ≠ .symbol .question) ∧ e = c ∧ rest = xs ∨
      ∃ inner p ys y q zs n, b = inner + 1 ∧ xs = ⟨.symbol .question, p⟩ :: ys ∧
        expression.read inner ys = .ok (y, ⟨.symbol .colon, q⟩ :: zs) ∧
        expression.read inner zs = .ok (n, rest) ∧ e = .conditional c y n (.byte p) := by
  unfold readBranches at h
  split at h
  · next p ys =>
    simp only [bind_eq_ok_iff, within_eq_ok_iff, after_eq_ok_iff, Prod.exists] at h
    obtain ⟨inner, rfl, y, _, hyes, zs, ⟨q, rfl⟩, n, r, hno, h⟩ := h
    cases h
    exact .inr ⟨inner, p, ys, y, q, zs, n, rfl, rfl, hyes, hno, rfl⟩
  · next hnot =>
    cases h
    exact .inl ⟨head?_ne_of_not_cons hnot, rfl, rfl⟩

/-- An operand is a primary phrase, or a prefix operator with its operand. -/
theorem read_operand_cases (h : (levels []).read b xs = .ok (e, rest)) :
    (∀ x ∈ xs.head?, x.lexeme.unary? = none) ∧ primary.read b xs = .ok (e, rest) ∨
      ∃ inner x ys op a, b = inner + 1 ∧ xs = x :: ys ∧ (x.lexeme, op) ∈ UnaryOp.spellings ∧
        (levels []).read inner ys = .ok (a, rest) ∧ e = .unary op a x.position := by
  cases xs with
  | nil => exact .inl ⟨by simp, h⟩
  | cons x xs =>
      rw [read_operand_cons] at h
      split at h
      · next op hop =>
        simp only [bind_eq_ok_iff, within_eq_ok_iff, Prod.exists] at h
        obtain ⟨inner, rfl, a, r, ha, h⟩ := h
        cases h
        exact .inr ⟨inner, x, xs, op, a, rfl, rfl, unary?_eq_some_iff.mp hop, ha, rfl⟩
      · next hop => exact .inl ⟨by simpa using hop, h⟩

/-- A chain ends, or it goes on with an operator of its level that keeps the tree low. -/
theorem read_chain_cases {level : Level} {tighter : List Level} {left : Expr}
    (h : (chain level tighter left).read b xs = .ok (e, rest)) :
    (∀ x ∈ xs.head?, ∀ op, (x.lexeme, op) ∉ level.spellings) ∧ e = left ∧ rest = xs ∨
      ∃ x ys op right r, xs = x :: ys ∧ (x.lexeme, op) ∈ level.spellings ∧
        (levels tighter).read b ys = .ok (right, r) ∧
        (Expr.binary op left right x.position).height ≤ maxTreeHeight ∧
        (chain level tighter (.binary op left right x.position)).read b r = .ok (e, rest) := by
  cases xs with
  | nil =>
      rw [read_chain_nil] at h
      cases h
      exact .inl ⟨by simp, rfl, rfl⟩
  | cons x xs =>
      rw [read_chain_cons] at h
      split at h
      · next hop =>
        cases h
        refine .inl ⟨fun y hy op hmem => ?_, rfl, rfl⟩
        obtain rfl := Option.some.inj hy
        rw [operatorOf?_eq_some_iff.mpr hmem] at hop
        cases hop
      · next op hop =>
        simp only [bind_eq_ok_iff, Prod.exists] at h
        obtain ⟨right, r, hright, h⟩ := h
        split at h
        · cases h
        · next hlow =>
          exact .inr ⟨x, xs, op, right, r, rfl, operatorOf?_eq_some_iff.mp hop, hright,
            Nat.le_of_not_lt hlow, h⟩

/-- A name is a variable, a call without arguments, or a call with some. -/
theorem readNamed_cases {name : String} {p : Position}
    (h : readNamed b name p xs = .ok (e, rest)) :
    (∀ x ∈ xs.head?, x.lexeme ≠ .symbol .openParen) ∧ e = .var name p ∧ rest = xs ∨
      (∃ inner q r, b = inner + 1 ∧
        xs = ⟨.symbol .openParen, q⟩ :: ⟨.symbol .closeParen, r⟩ :: rest ∧ e = .call name [] p) ∨
      ∃ inner q ys, b = inner + 1 ∧ xs = ⟨.symbol .openParen, q⟩ :: ys ∧
        (∀ x ∈ ys.head?, x.lexeme ≠ .symbol .closeParen) ∧
        (arguments name p []).read inner ys = .ok (e, rest) := by
  unfold readNamed at h
  split at h
  · next q ys =>
    simp only [bind_eq_ok_iff, within_eq_ok_iff] at h
    obtain ⟨inner, rfl, h⟩ := h
    unfold readArguments at h
    split at h
    · next r zs =>
      cases h
      exact .inr (.inl ⟨inner, q, r, rfl, rfl, rfl⟩)
    · next hnot => exact .inr (.inr ⟨inner, q, ys, rfl, rfl, head?_ne_of_not_cons hnot, h⟩)
  · next hnot =>
    cases h
    exact .inl ⟨head?_ne_of_not_cons hnot, rfl, rfl⟩

/-- A primary phrase is a literal, starts with a name, or is a group. -/
theorem read_primary_cases (h : primary.read b xs = .ok (e, rest)) :
    (∃ x v, xs = x :: rest ∧ x.lexeme.literal? = some v ∧ e = .literal v x.position) ∨
      (∃ name p ys, xs = ⟨.identifier name, p⟩ :: ys ∧
        readNamed b name (.byte p) ys = .ok (e, rest)) ∨
      ∃ inner p q ys, b = inner + 1 ∧ xs = ⟨.symbol .openParen, p⟩ :: ys ∧
        expression.read inner ys = .ok (e, ⟨.symbol .closeParen, q⟩ :: rest) := by
  cases xs with
  | nil => cases h
  | cons x xs =>
      obtain ⟨l, p⟩ := x
      rw [read_primary_cons] at h
      split at h
      · next hl =>
        obtain rfl : l = _ := hl
        simp only [bind_eq_ok_iff, within_eq_ok_iff, after_eq_ok_iff, Prod.exists] at h
        obtain ⟨inner, rfl, a, _, ha, r, ⟨q, rfl⟩, h⟩ := h
        cases h
        exact .inr (.inr ⟨inner, p, q, xs, rfl, rfl, ha⟩)
      · next name hl =>
        obtain rfl : l = _ := hl
        exact .inr (.inl ⟨name, p, xs, rfl, h⟩)
      · split at h
        · next v hv =>
          cases h
          exact .inl ⟨_, v, rfl, hv, rfl⟩
        · cases h

/-- After an argument, another one is read, or the call is closed. -/
theorem readMore_cases {name : String} {p : Position} {given : List Expr}
    (h : readMore b name p given xs = .ok (e, rest)) :
    (∃ q ys, xs = ⟨.symbol .comma, q⟩ :: ys ∧
      (arguments name p given).read b ys = .ok (e, rest)) ∨
      ∃ q, xs = ⟨.symbol .closeParen, q⟩ :: rest ∧ e = .call name given p := by
  unfold readMore at h
  split at h
  · next q ys => exact .inl ⟨q, ys, rfl, h⟩
  · simp only [bind_eq_ok_iff, after_eq_ok_iff] at h
    obtain ⟨r, ⟨q, rfl⟩, h⟩ := h
    cases h
    exact .inr ⟨q, rfl, rfl⟩

end Cases

/-! ### Progress -/

/-- Whether a phrase may be empty: only what continues a chain may. -/
def MayBeEmpty : Phrase → Prop
  | chain _ _ _ => True
  | _ => False

/-- A phrase that is read leaves fewer lexemes, or as many if it may be empty. -/
theorem read_rest_length {b : Nat} {g : Phrase} {xs rest : List Placed} {e : Expr}
    (h : g.read b xs = .ok (e, rest)) :
    rest.length ≤ xs.length ∧ (¬ g.MayBeEmpty → rest.length < xs.length) := by
  have hmap {α : Type} {n : Nat} {r : Except SyntaxError (Parsed α n)} {f : α → Expr}
      (h : r.map (fun p => (f p.value, p.rest)) = .ok (e, rest)) : rest.length < n := by
    cases r with
    | error => simp [Except.map] at h
    | ok p =>
        simp only [Except.map, Except.ok.injEq, Prod.mk.injEq] at h
        exact h.2 ▸ p.rest_lt
  cases g with
  | chain level tighter left =>
      exact ⟨Nat.le_of_lt_succ (hmap (f := id) h), fun hne => absurd trivial hne⟩
  | expression => exact ⟨Nat.le_of_lt (hmap (f := id) h), fun _ => hmap (f := id) h⟩
  | levels ls => exact ⟨Nat.le_of_lt (hmap (f := id) h), fun _ => hmap (f := id) h⟩
  | primary => exact ⟨Nat.le_of_lt (hmap (f := id) h), fun _ => hmap (f := id) h⟩
  | arguments name p given =>
      have hlt := hmap (f := fun args => .call name (given ++ args) p) h
      exact ⟨Nat.le_of_lt hlt, fun _ => hlt⟩

end Phrase

/-! ### The entry point -/

/-- The error for a lexeme that follows a complete expression. -/
def SyntaxError.trailing (next : Placed) : SyntaxError :=
  if next.lexeme = .symbol .closeParen then .located .unmatchedClosingParen next.position
  else .located (.trailingTokens next.lexeme.shown) next.position

/-- The tree that was read, if nothing is left. -/
def atEnd (tree : Expr) : List Placed → Except SyntaxError Expr
  | [] => .ok tree
  | next :: _ => .error (.trailing next)

theorem parseLexemes_eq {xs : List Placed} (hne : xs ≠ []) :
    parseLexemes xs =
      Phrase.expression.read maxNesting xs >>= fun whole => atEnd whole.1 whole.2 := by
  cases xs with
  | nil => exact absurd rfl hne
  | cons x xs =>
      simp only [parseLexemes, Phrase.read, Parser.expression, insideAt, Nat.sub_zero]
      cases expressionWith (insideOf maxNesting) (x :: xs) with
      | error => rfl
      | ok whole =>
          obtain ⟨tree, rest, hlt⟩ := whole
          cases rest with
          | nil => rfl
          | cons next rest =>
              change (if _ then _ else _) = Except.error (SyntaxError.trailing next)
              unfold SyntaxError.trailing
              split <;> rfl

end Reckon
