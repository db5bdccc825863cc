import Reckon.Proofs.MovedPlaces
/-!
# A greater budget of nesting levels

The budget of nesting levels decides whether a construct may be entered, and nothing else looks at
it.  So a phrase that is read with some budget, or refused for another reason than its nesting, is
read or refused in the same way with a greater one.  The proof runs the parser with both budgets
side by side, along the goals of the smaller one: where a nesting construct is entered, both budgets
have a level left, or the smaller run has already reported the limit.

* `UnlessTooDeep` — two outcomes agree, unless the first reports a limit;
* `Goal.raisable` — a goal with a greater budget;
* `raise_expression`, `raise_binaryLevel` — the parsers at a smaller depth.
-/

namespace Reckon

open Reckon.Parser

/-! ### Outcomes that agree -/

/-- The second outcome is the first, unless the first reports a limit. -/
def UnlessTooDeep {α : Type} (r r' : Except SyntaxError α) : Prop :=
  (∀ p, r ≠ .error (.located .nestingTooDeep p)) → r' = r

theorem unlessTooDeep_rfl {α : Type} {r : Except SyntaxError α} : UnlessTooDeep r r := fun _ => rfl

/-- A limit that is reported leaves the second outcome open. -/
theorem unlessTooDeep_limit {α : Type} {p : Position} {r : Except SyntaxError α} :
    UnlessTooDeep (.error (.located .nestingTooDeep p)) r :=
  fun h => absurd rfl (h p)

/-- Two steps agree when each of them does. -/
theorem UnlessTooDeep.bind {α β : Type} {r r' : Except SyntaxError α}
    {k k' : α → Except SyntaxError β} (hr : UnlessTooDeep r r')
    (hk : ∀ a, r = .ok a → UnlessTooDeep (k a) (k' a)) : UnlessTooDeep (r >>= k) (r' >>= k') := by
  intro hlimit
  cases r with
  | error e =>
      have hsame : r' = .error e := hr fun p he => hlimit p (by rw [he]; rfl)
      rw [hsame]
      rfl
  | ok a =>
      have hsame : r' = .ok a := hr (by simp)
      rw [hsame]
      exact hk a rfl hlimit

/-- What is entered with the smaller budget is entered with the greater one. -/
theorem UnlessTooDeep.within {β : Type} {b c : Nat} {p : Position} (hle : b ≤ c)
    {k k' : Nat → Except SyntaxError β}
    (hk : ∀ inner outer, b = inner + 1 → inner ≤ outer → UnlessTooDeep (k inner) (k' outer)) :
    UnlessTooDeep (Reckon.within b p >>= k) (Reckon.within c p >>= k') := by
  cases b with
  | zero => exact unlessTooDeep_limit
  | succ b =>
      cases c with
      | zero => exact absurd hle (Nat.not_succ_le_zero b)
      | succ c => exact hk b c rfl (Nat.le_of_succ_le_succ hle)

namespace Goal

/-! ### Goals with a greater budget -/

/-- The goal has the same outcome with a greater budget, unless it reports a limit. -/
def Raisable (g : Goal) : Prop :=
  ∀ c, g.budget ≤ c → UnlessTooDeep g.outcome (Goal.outcome ⟨c, g.phrase, g.input⟩)

section Steps

variable {b : Nat} {xs : List Placed}

theorem raisable_expression (ih : ∀ h, Leads ⟨b, .expression, xs⟩ h → h.Raisable) :
    Raisable ⟨b, .expression, xs⟩ := by
  intro c hle
  change UnlessTooDeep (Phrase.expression.read b xs) (Phrase.expression.read c xs)
  rw [Phrase.read_expression, Phrase.read_expression]
  refine (ih _ .condition c hle).bind fun a hcondition => ?_
  obtain ⟨a, rest⟩ := a
  obtain ⟨p, ys, rfl⟩ | ⟨hrest, -⟩ := starts_or id (.symbol .question) rest
  · refine UnlessTooDeep.within hle fun inner outer hinner houter => ?_
    subst hinner
    refine (ih _ (.yes hcondition) outer houter).bind fun yes hyes => ?_
    refine UnlessTooDeep.bind unlessTooDeep_rfl fun zs hzs => ?_
    obtain ⟨q, hcolon⟩ := after_eq_ok_iff.mp hzs
    obtain ⟨y, r⟩ := yes
    obtain rfl : r = _ := hcolon
    exact (ih _ (.no hcondition hyes) outer houter).bind fun _ _ => unlessTooDeep_rfl
  · rw [Phrase.readBranches_of_ne hrest, Phrase.readBranches_of_ne hrest]
    exact unlessTooDeep_rfl

theorem raisable_operand (ih : ∀ h, Leads ⟨b, .levels [], xs⟩ h → h.Raisable) :
    Raisable ⟨b, .levels [], xs⟩ := by
  intro c hle
  change UnlessTooDeep ((Phrase.levels []).read b xs) ((Phrase.levels []).read c xs)
  cases xs with
  | nil => exact unlessTooDeep_rfl
  | cons x xs =>
      cases hop : x.lexeme.unary? with
      | none =>
          have hnone : ∀ y ∈ (x :: xs).head?, y.lexeme.unary? = none := by simpa using hop
          rw [Phrase.read_operand_of_none hnone, Phrase.read_operand_of_none hnone]
          exact ih _ (.operand hnone) c hle
      | some op =>
          have hop := unary?_eq_some_iff.mp hop
          rw [Phrase.read_prefixed hop, Phrase.read_prefixed hop]
          refine UnlessTooDeep.within hle fun inner outer hinner houter => ?_
          subst hinner
          exact (ih _ (.prefixed hop) outer houter).bind fun _ _ => unlessTooDeep_rfl

theorem raisable_level {level : Level} {tighter : List Level}
    (ih : ∀ h, Leads ⟨b, .levels (level :: tighter), xs⟩ h → h.Raisable) :
    Raisable ⟨b, .levels (level :: tighter), xs⟩ := by
  intro c hle
  change UnlessTooDeep ((Phrase.levels _).read b xs) ((Phrase.levels _).read c xs)
  rw [Phrase.read_level, Phrase.read_level]
  exact (ih _ .first c hle).bind fun _ hfirst => ih _ (.others hfirst) c hle

theorem raisable_chain {level : Level} {tighter : List Level} {left : Expr}
    (ih : ∀ h, Leads ⟨b, .chain level tighter left, xs⟩ h → h.Raisable) :
    Raisable ⟨b, .chain level tighter left, xs⟩ := by
  intro c hle
  change UnlessTooDeep ((Phrase.chain _ _ _).read b xs) ((Phrase.chain _ _ _).read c xs)
  cases xs with
  | nil =>
      rw [Phrase.read_chain_nil, Phrase.read_chain_nil]
      exact unlessTooDeep_rfl
  | cons x xs =>
      cases hop : operatorOf? level x.lexeme with
      | none =>
          rw [Phrase.read_chain_cons, Phrase.read_chain_cons, hop]
          exact unlessTooDeep_rfl
      | some op =>
          have hop := operatorOf?_eq_some_iff.mp hop
          rw [Phrase.read_chain_operator hop, Phrase.read_chain_operator hop]
          refine (ih _ (.right hop) c hle).bind fun right hright => ?_
          split
          · exact unlessTooDeep_limit
          · next hlow => exact ih _ (.next hop hright (Nat.le_of_not_lt hlow)) c hle

theorem raisable_named {name : String} {p : Nat} {c : Nat} (hle : b ≤ c)
    (ih : ∀ h, Leads ⟨b, .primary, ⟨.identifier name, p⟩ :: xs⟩ h → h.Raisable) :
    UnlessTooDeep (Phrase.readNamed b name (.byte p) xs)
      (Phrase.readNamed c name (.byte p) xs) := by
  obtain ⟨q, ys, rfl⟩ | ⟨hxs, -⟩ := starts_or id (.symbol .openParen) xs
  · refine UnlessTooDeep.within hle fun inner outer hinner houter => ?_
    subst hinner
    obtain ⟨r, zs, rfl⟩ | ⟨hys, -⟩ := starts_or id (.symbol .closeParen) ys
    · exact unlessTooDeep_rfl
    · rw [Phrase.readArguments_of_ne hys, Phrase.readArguments_of_ne hys]
      exact ih _ (.call hys) outer houter
  · rw [Phrase.readNamed_of_ne hxs, Phrase.readNamed_of_ne hxs]
    exact unlessTooDeep_rfl

theorem raisable_primary (ih : ∀ h, Leads ⟨b, .primary, xs⟩ h → h.Raisable) :
    Raisable ⟨b, .primary, xs⟩ := by
  intro c hle
  change UnlessTooDeep (Phrase.primary.read b xs) (Phrase.primary.read c xs)
  cases xs with
  | nil => exact unlessTooDeep_rfl
  | cons x xs =>
      obtain ⟨l, p⟩ := x
      rw [Phrase.read_primary_cons, Phrase.read_primary_cons]
      cases l with
      | identifier name => exact raisable_named hle ih
      | symbol s =>
          by_cases hs : s = .openParen
          · subst hs
            refine UnlessTooDeep.within hle fun inner outer hinner houter => ?_
            subst hinner
            exact (ih _ .group outer houter).bind fun _ _ => unlessTooDeep_rfl
          · cases s <;> first | exact absurd rfl hs | exact unlessTooDeep_rfl
      | number | boolean | string | keyword => exact unlessTooDeep_rfl

theorem raisable_arguments {name : String} {p : Position} {given : List Expr}
    (ih : ∀ h, Leads ⟨b, .arguments name p given, xs⟩ h → h.Raisable) :
    Raisable ⟨b, .arguments name p given, xs⟩ := by
  intro c hle
  change UnlessTooDeep ((Phrase.arguments _ _ _).read b xs) ((Phrase.arguments _ _ _).read c xs)
  rw [Phrase.read_arguments, Phrase.read_arguments]
  refine (ih _ .argument c hle).bind fun a hargument => ?_
  obtain ⟨a, rest⟩ := a
  obtain ⟨q, ys, rfl⟩ | ⟨hrest, -⟩ := starts_or id (.symbol .comma) rest
  · exact ih _ (.more hargument) c hle
  · rw [Phrase.readMore_of_ne hrest, Phrase.readMore_of_ne hrest]
    exact unlessTooDeep_rfl

end Steps

/-- **A greater budget changes nothing but the limit.** -/
theorem raisable (g : Goal) : g.Raisable :=
  g.induction raisable_expression raisable_operand raisable_level raisable_chain raisable_primary
    raisable_arguments

end Goal

/-! ### Depths -/

/-- Results that agree without their bounds agree. -/
theorem UnlessTooDeep.of_pair {α : Type} {n : Nat} {r r' : Except SyntaxError (Parsed α n)}
    (h : UnlessTooDeep (r.map Parsed.pair) (r'.map Parsed.pair)) : UnlessTooDeep r r' := by
  intro hlimit
  cases r with
  | error e =>
      have hsame := h (by simpa [Except.map] using hlimit)
      cases r' with
      | error e' => simpa [Except.map] using hsame
      | ok parsed => cases hsame
  | ok parsed =>
      have hsame := h (by simp [Except.map])
      cases r' with
      | error e' => cases hsame
      | ok parsed' =>
          obtain ⟨value, rest, hlt⟩ := parsed
          obtain ⟨value', rest', hlt'⟩ := parsed'
          obtain ⟨rfl, rfl⟩ := Prod.mk.inj (Except.ok.inj hsame)
          rfl

/-- An expression at a smaller depth. -/
theorem raise_expression {depth outer : Nat} (hle : outer ≤ depth) (xs : List Placed) :
    UnlessTooDeep (Parser.expression depth xs) (Parser.expression outer xs) :=
  .of_pair (Goal.raisable ⟨maxNesting - depth, .expression, xs⟩ (maxNesting - outer)
    (Nat.sub_le_sub_left hle maxNesting))

/-- A level of binary operators at a smaller depth. -/
theorem raise_binaryLevel {depth outer : Nat} (hle : outer ≤ depth) (level : Level)
    (xs : List Placed) :
    UnlessTooDeep (Parser.binaryLevel level depth xs) (Parser.binaryLevel level outer xs) :=
  .of_pair (Goal.raisable ⟨maxNesting - depth, .levels level.andTighter, xs⟩ (maxNesting - outer)
    (Nat.sub_le_sub_left hle maxNesting))

end Reckon
