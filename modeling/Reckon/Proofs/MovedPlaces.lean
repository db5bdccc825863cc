import Reckon.Evaluation
import Reckon.Proofs.ParserGoals
import Reckon.Proofs.TreeShape
/-!
# Moved places

The parser hands the places of lexemes on and never looks at them.  So when every lexeme is moved,
whatever the move is, the parser does what it did, and the tree or the error is moved with them.
The same holds for each phrase, by induction along the goals of the parser.  What a tree evaluates
to has nothing to do with places at all.

* `Expr.moved`, `SyntaxError.moved` — a tree and an error at other places;
* `Goal.movable` — a phrase is read from moved lexemes as it was from the others;
* `parseLexemes_moved` — so is a whole expression;
* `SameShape.evaluate_eq` — trees that are equal up to positions are evaluated alike.
-/

namespace Reckon

open Reckon.Parser

/-! ### Moving -/

/-- A position after the bytes have been moved.  The end of the input stays the end. -/
def Position.moved (f : Nat → Nat) : Position → Position
  | byte p => byte (f p)
  | endOfInput => endOfInput

/-- A lexeme at another place. -/
def Placed.moved (f : Nat → Nat) (x : Placed) : Placed := ⟨x.lexeme, f x.start⟩

/-- An error at another place. -/
def SyntaxError.moved (f : Nat → Nat) : SyntaxError → SyntaxError
  | emptyExpression => emptyExpression
  | located fault p => located fault (p.moved f)

namespace Expr

mutual

/-- A tree with its nodes at other places. -/
def moved (f : Nat → Nat) : Expr → Expr
  | literal v p => literal v (p.moved f)
  | var name p => var name (p.moved f)
  | unary op a p => unary op (a.moved f) (p.moved f)
  | binary op a b p => binary op (a.moved f) (b.moved f) (p.moved f)
  | conditional c y n p => conditional (c.moved f) (y.moved f) (n.moved f) (p.moved f)
  | call name args p => call name (movedAll f args) (p.moved f)

/-- Several trees with their nodes at other places. -/
def movedAll (f : Nat → Nat) : List Expr → List Expr
  | [] => []
  | e :: es => e.moved f :: movedAll f es

end

theorem movedAll_eq_map (f : Nat → Nat) (es : List Expr) : movedAll f es = es.map (moved f) := by
  induction es with
  | nil => rfl
  | cons e es ih => simp [movedAll, ih]

/-- A tree that is moved keeps its shape. -/
theorem moved_sameShape (f : Nat → Nat) (e : Expr) : (e.moved f).SameShape e := by
  change (e.moved f).unplaced = e.unplaced
  induction e using induction with
  | literal | var => rfl
  | unary op a p ha => simp [moved, unplaced, ha]
  | binary op a b p ha hb => simp [moved, unplaced, ha, hb]
  | conditional c y n p hc hy hn => simp [moved, unplaced, hc, hy, hn]
  | call name args p hargs => simpa [moved, movedAll_eq_map, unplaced] using hargs

@[simp] theorem height_moved (f : Nat → Nat) (e : Expr) : (e.moved f).height = e.height := by
  rw [← height_unplaced, e.moved_sameShape f, height_unplaced]

/-! ### Evaluation -/

/-- Evaluation does not look at positions. -/
theorem evaluate_unplaced (e : Expr) : e.unplaced.evaluate = e.evaluate := by
  induction e using induction with
  | literal | var => rfl
  | unary op a p ha => simp only [unplaced, evaluate, ha]
  | binary op a b p ha hb => simp only [unplaced, evaluate, ha, hb]
  | conditional c y n p hc hy hn => simp only [unplaced, evaluate, hc, hy, hn]
  | call name args p hargs =>
    have hall : evaluateAll (args.map unplaced) = evaluateAll args := by
      clear p
      induction args with
      | nil => rfl
      | cons a args ih =>
        have hhead := hargs a List.mem_cons_self
        have htail := ih fun c hc => hargs c (List.mem_cons_of_mem a hc)
        simp only [List.map_cons, evaluateAll, hhead, htail]
    simp only [unplaced, unplacedAll_eq_map, evaluate, hall]

/-- Trees that are equal up to positions are evaluated alike. -/
theorem SameShape.evaluate_eq {a b : Expr} (h : a.SameShape b) : a.evaluate = b.evaluate := by
  rw [← evaluate_unplaced a, h, evaluate_unplaced]

end Expr

/-! ### Results of parsers -/

/-- A result after the lexemes have been moved, where `m` says what becomes of the value. -/
def movedResult {α β : Type} (f : Nat → Nat) (m : α → β) :
    Except SyntaxError α → Except SyntaxError β
  | .ok a => .ok (m a)
  | .error e => .error (e.moved f)

/-- Two steps move when each of them does. -/
theorem movedResult_bind {α β γ δ : Type} {f : Nat → Nat} {m : α → γ} {n : β → δ}
    {r : Except SyntaxError α} {r' : Except SyntaxError γ} {k : α → Except SyntaxError β}
    {k' : γ → Except SyntaxError δ} (hr : r' = movedResult f m r)
    (hk : ∀ a, r = .ok a → k' (m a) = movedResult f n (k a)) :
    (r' >>= k') = movedResult f n (r >>= k) := by
  subst hr
  cases r with
  | error e => rfl
  | ok a => exact hk a rfl

theorem missing_moved (f : Nat → Nat) (fault : Fault) (xs : List Placed) :
    missing fault (xs.map (Placed.moved f)) = (missing fault xs).moved f := by
  cases xs <;> rfl

theorem within_moved (f : Nat → Nat) (b : Nat) (p : Position) :
    within b (p.moved f) = movedResult f id (within b p) := by
  cases b <;> rfl

theorem after_moved (f : Nat → Nat) (symbol : Symbol) (fault : Fault) (xs : List Placed) :
    after symbol fault (xs.map (Placed.moved f)) =
      movedResult f (List.map (Placed.moved f)) (after symbol fault xs) := by
  cases xs with
  | nil => rfl
  | cons x xs =>
    by_cases hx : x.lexeme = .symbol symbol
    · simp [after, Placed.moved, movedResult, hx]
    · have hmissing := missing_moved f fault (x :: xs)
      simpa [after, Placed.moved, movedResult, hx] using hmissing

theorem trailing_moved (f : Nat → Nat) (x : Placed) :
    SyntaxError.trailing (x.moved f) = (SyntaxError.trailing x).moved f := by
  by_cases hx : x.lexeme = .symbol .closeParen <;>
    simp [SyntaxError.trailing, SyntaxError.moved, Placed.moved, Placed.position, Position.moved,
      hx]

/-- A list of lexemes starts with a certain one, or it does not, wherever the lexemes are. -/
theorem starts_or (f : Nat → Nat) (l : Lexeme) (xs : List Placed) :
    (∃ p ys, xs = ⟨l, p⟩ :: ys) ∨
      (∀ x ∈ xs.head?, x.lexeme ≠ l) ∧ ∀ x ∈ (xs.map (Placed.moved f)).head?, x.lexeme ≠ l := by
  cases xs with
  | nil => simp
  | cons x xs =>
    obtain ⟨l', p⟩ := x
    by_cases hl : l' = l
    · exact .inl ⟨p, xs, by rw [hl]⟩
    · exact .inr ⟨by simp [hl], by simp [Placed.moved, hl]⟩

namespace Phrase

/-- A phrase that carries its trees at other places. -/
def moved (f : Nat → Nat) : Phrase → Phrase
  | chain level tighter left => chain level tighter (left.moved f)
  | arguments name p given => arguments name (p.moved f) (given.map (Expr.moved f))
  | g => g

end Phrase

/-! ### Goals -/

/-- What was read from lexemes, after they have been moved. -/
def movedRead (f : Nat → Nat) (r : Expr × List Placed) : Expr × List Placed :=
  (r.1.moved f, r.2.map (Placed.moved f))

namespace Goal

/-- A goal whose lexemes are at other places. -/
def moved (f : Nat → Nat) (g : Goal) : Goal :=
  ⟨g.budget, g.phrase.moved f, g.input.map (Placed.moved f)⟩

/-- What comes out at the goal moves with the lexemes. -/
def Movable (f : Nat → Nat) (g : Goal) : Prop :=
  (g.moved f).outcome = movedResult f (movedRead f) g.outcome

section Steps

variable {f : Nat → Nat} {b : Nat} {xs : List Placed}

theorem movable_expression (ih : ∀ h, Leads ⟨b, .expression, xs⟩ h → h.Movable f) :
    Movable f ⟨b, .expression, xs⟩ := by
  change Phrase.expression.read b _ = movedResult f _ (Phrase.expression.read b xs)
  rw [Phrase.read_expression, Phrase.read_expression]
  refine movedResult_bind (ih _ .condition) fun c hcondition => ?_
  obtain ⟨c, rest⟩ := c
  obtain ⟨p, ys, rfl⟩ | ⟨hrest, hmoved⟩ := starts_or f (.symbol .question) rest
  · refine movedResult_bind (within_moved f b (.byte p)) fun inner hinner => ?_
    obtain rfl := within_eq_ok_iff.mp hinner
    refine movedResult_bind (ih _ (.yes hcondition)) fun yes hyes => ?_
    refine movedResult_bind (after_moved f _ _ _) fun zs hzs => ?_
    obtain ⟨q, hcolon⟩ := after_eq_ok_iff.mp hzs
    obtain ⟨y, r⟩ := yes
    obtain rfl : r = _ := hcolon
    refine movedResult_bind (ih _ (.no hcondition hyes)) fun no hno => ?_
    rfl
  · rw [Phrase.readBranches_of_ne hrest]
    exact Phrase.readBranches_of_ne hmoved

theorem movable_operand (ih : ∀ h, Leads ⟨b, .levels [], xs⟩ h → h.Movable f) :
    Movable f ⟨b, .levels [], xs⟩ := by
  cases xs with
  | nil => rfl
  | cons x xs =>
    change (Phrase.levels []).read b (x.moved f :: xs.map (Placed.moved f)) =
      movedResult f _ ((Phrase.levels []).read b (x :: xs))
    cases hop : x.lexeme.unary? with
    | none =>
      rw [Phrase.read_operand_of_none (by simpa [Placed.moved] using hop),
        Phrase.read_operand_of_none (by simpa using hop)]
      exact ih _ (.operand (by simpa using hop))
    | some op =>
      have hop := unary?_eq_some_iff.mp hop
      rw [Phrase.read_prefixed hop, Phrase.read_prefixed (x := x.moved f) hop]
      refine movedResult_bind (within_moved f b x.position) fun inner hinner => ?_
      obtain rfl := within_eq_ok_iff.mp hinner
      refine movedResult_bind (ih _ (.prefixed hop)) fun a _ => ?_
      rfl

theorem movable_level {level : Level} {tighter : List Level}
    (ih : ∀ h, Leads ⟨b, .levels (level :: tighter), xs⟩ h → h.Movable f) :
    Movable f ⟨b, .levels (level :: tighter), xs⟩ := by
  change (Phrase.levels (level :: tighter)).read b _ =
    movedResult f _ ((Phrase.levels (level :: tighter)).read b xs)
  rw [Phrase.read_level, Phrase.read_level]
  refine movedResult_bind (ih _ .first) fun a hfirst => ?_
  exact ih _ (.others hfirst)

theorem movable_chain {level : Level} {tighter : List Level} {left : Expr}
    (ih : ∀ h, Leads ⟨b, .chain level tighter left, xs⟩ h → h.Movable f) :
    Movable f ⟨b, .chain level tighter left, xs⟩ := by
  cases xs with
  | nil =>
    change (Phrase.chain _ _ _).read b [] = movedResult f _ ((Phrase.chain _ _ _).read b [])
    rw [Phrase.read_chain_nil, Phrase.read_chain_nil]
    rfl
  | cons x xs =>
    change (Phrase.chain level tighter (left.moved f)).read b
      (x.moved f :: xs.map (Placed.moved f)) =
        movedResult f _ ((Phrase.chain level tighter left).read b (x :: xs))
    cases hop : operatorOf? level x.lexeme with
    | none =>
      rw [Phrase.read_chain_cons, Phrase.read_chain_cons, hop]
      simp only [Placed.moved, hop]
      rfl
    | some op =>
      have hop := operatorOf?_eq_some_iff.mp hop
      rw [Phrase.read_chain_operator hop, Phrase.read_chain_operator (x := x.moved f) hop]
      refine movedResult_bind (ih _ (.right hop)) fun a hright => ?_
      have hheight : (Expr.binary op (left.moved f) (a.1.moved f) (x.moved f).position).height =
          (Expr.binary op left a.1 x.position).height := by simp
      simp only [movedRead, hheight]
      split
      · rfl
      · next hlow => exact ih _ (.next hop hright (Nat.le_of_not_lt hlow))

theorem movable_named {name : String} {p : Nat}
    (ih : ∀ h, Leads ⟨b, .primary, ⟨.identifier name, p⟩ :: xs⟩ h → h.Movable f) :
    Phrase.readNamed b name (.byte (f p)) (xs.map (Placed.moved f)) =
      movedResult f (movedRead f) (Phrase.readNamed b name (.byte p) xs) := by
  obtain ⟨q, ys, rfl⟩ | ⟨hxs, hmoved⟩ := starts_or f (.symbol .openParen) xs
  · refine movedResult_bind (within_moved f b (.byte q)) fun inner hinner => ?_
    obtain rfl := within_eq_ok_iff.mp hinner
    obtain ⟨r, zs, rfl⟩ | ⟨hys, hmoved⟩ := starts_or f (.symbol .closeParen) ys
    · rfl
    · rw [Phrase.readArguments_of_ne hys, Phrase.readArguments_of_ne hmoved]
      exact ih _ (.call hys)
  · rw [Phrase.readNamed_of_ne hxs, Phrase.readNamed_of_ne hmoved]
    rfl

theorem movable_primary (ih : ∀ h, Leads ⟨b, .primary, xs⟩ h → h.Movable f) :
    Movable f ⟨b, .primary, xs⟩ := by
  cases xs with
  | nil => rfl
  | cons x xs =>
    obtain ⟨l, p⟩ := x
    change Phrase.primary.read b (⟨l, f p⟩ :: xs.map (Placed.moved f)) =
      movedResult f _ (Phrase.primary.read b (⟨l, p⟩ :: xs))
    rw [Phrase.read_primary_cons, Phrase.read_primary_cons]
    cases l with
    | identifier name => exact movable_named ih
    | symbol s =>
      by_cases hs : s = .openParen
      · subst hs
        refine movedResult_bind (within_moved f b (.byte p)) fun inner hinner => ?_
        obtain rfl := within_eq_ok_iff.mp hinner
        refine movedResult_bind (ih _ .group) fun whole _ => ?_
        refine movedResult_bind (after_moved f _ _ _) fun rest _ => ?_
        rfl
      · cases s <;> first | exact absurd rfl hs | rfl
    | number | boolean | string | keyword => rfl

theorem movable_arguments {name : String} {p : Position} {given : List Expr}
    (ih : ∀ h, Leads ⟨b, .arguments name p given, xs⟩ h → h.Movable f) :
    Movable f ⟨b, .arguments name p given, xs⟩ := by
  change (Phrase.arguments name (p.moved f) (given.map (Expr.moved f))).read b _ =
    movedResult f _ ((Phrase.arguments name p given).read b xs)
  rw [Phrase.read_arguments, Phrase.read_arguments]
  refine movedResult_bind (ih _ .argument) fun a hargument => ?_
  obtain ⟨a, rest⟩ := a
  have hgiven : given.map (Expr.moved f) ++ [a.moved f] = (given ++ [a]).map (Expr.moved f) := by
    simp
  simp only [movedRead, hgiven]
  obtain ⟨q, ys, rfl⟩ | ⟨hrest, hmoved⟩ := starts_or f (.symbol .comma) rest
  · exact ih _ (.more hargument)
  · rw [Phrase.readMore_of_ne hrest, Phrase.readMore_of_ne hmoved]
    refine movedResult_bind (after_moved f _ _ _) fun zs _ => ?_
    simp [movedResult, movedRead, Expr.moved, Expr.movedAll_eq_map]

end Steps

/-- **A phrase is read as before from lexemes at other places.** -/
theorem movable (f : Nat → Nat) (g : Goal) : g.Movable f :=
  g.induction movable_expression movable_operand movable_level movable_chain movable_primary
    movable_arguments

end Goal

/-- **An expression at other places** is read as it was, with the tree or the error moved. -/
theorem parseLexemes_moved (f : Nat → Nat) (xs : List Placed) :
    parseLexemes (xs.map (Placed.moved f)) = movedResult f (Expr.moved f) (parseLexemes xs) := by
  by_cases hne : xs = []
  · subst hne
    rfl
  rw [parseLexemes_eq hne, parseLexemes_eq (by simpa using hne)]
  refine movedResult_bind (Goal.movable f ⟨maxNesting, .expression, xs⟩) fun whole _ => ?_
  obtain ⟨tree, rest⟩ := whole
  cases rest with
  | nil => rfl
  | cons x rest => exact congrArg Except.error (trailing_moved f x)

end Reckon
