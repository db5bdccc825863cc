import Mathlib.Data.Prod.Lex
import Mathlib.Order.WellFounded
import Reckon.Proofs.PhraseReading
/-!
# Goals of the parser

A goal is a phrase to be read from a list of lexemes, with a budget of nesting levels.  Working at
a goal, the parser comes to further goals: it may first have read other phrases, and then the
lexemes of the new goal are those that they left.  `Goal.Leads` has one rule for each place at
which one parser calls another, and says what is known there.

The relation is well-founded, since a new goal has fewer lexemes, or the same ones and a phrase of
lower rank.  All facts about the parser are proved by induction along it.
-/

namespace Reckon

/-- A phrase to be read from the front of a list of lexemes. -/
structure Goal where
  budget : Nat
  phrase : Phrase
  input : List Placed

namespace Goal

/-- What the parser makes of the goal. -/
def outcome (g : Goal) : Except SyntaxError (Expr × List Placed) :=
  g.phrase.read g.budget g.input

/-- Working at one goal, the parser comes to another one. -/
inductive Leads : Goal → Goal → Prop
  | condition {b : Nat} {xs : List Placed} :
      Leads ⟨b, .expression, xs⟩ ⟨b, .levels Level.loosestFirst, xs⟩
  | yes {b p : Nat} {xs ys : List Placed} {c : Expr}
      (hcondition : (Phrase.levels Level.loosestFirst).read (b + 1) xs =
        .ok (c, ⟨.symbol .question, p⟩ :: ys)) :
      Leads ⟨b + 1, .expression, xs⟩ ⟨b, .expression, ys⟩
  | no {b p q : Nat} {xs ys zs : List Placed} {c y : Expr}
      (hcondition : (Phrase.levels Level.loosestFirst).read (b + 1) xs =
        .ok (c, ⟨.symbol .question, p⟩ :: ys))
      (hyes : Phrase.expression.read b ys = .ok (y, ⟨.symbol .colon, q⟩ :: zs)) :
      Leads ⟨b + 1, .expression, xs⟩ ⟨b, .expression, zs⟩
  | prefixed {b : Nat} {x : Placed} {xs : List Placed} {op : UnaryOp}
      (hop : (x.lexeme, op) ∈ UnaryOp.spellings) :
      Leads ⟨b + 1, .levels [], x :: xs⟩ ⟨b, .levels [], xs⟩
  | operand {b : Nat} {xs : List Placed} (hop : ∀ x ∈ xs.head?, x.lexeme.unary? = none) :
      Leads ⟨b, .levels [], xs⟩ ⟨b, .primary, xs⟩
  | first {b : Nat} {level : Level} {tighter : List Level} {xs : List Placed} :
      Leads ⟨b, .levels (level :: tighter), xs⟩ ⟨b, .levels tighter, xs⟩
  | others {b : Nat} {level : Level} {tighter : List Level} {xs rest : List Placed} {left : Expr}
      (hfirst : (Phrase.levels tighter).read b xs = .ok (left, rest)) :
      Leads ⟨b, .levels (level :: tighter), xs⟩ ⟨b, .chain level tighter left, rest⟩
  | right {b : Nat} {level : Level} {tighter : List Level} {left : Expr} {x : Placed}
      {op : BinaryOp} {xs : List Placed} (hop : (x.lexeme, op) ∈ level.spellings) :
      Leads ⟨b, .chain level tighter left, x :: xs⟩ ⟨b, .levels tighter, xs⟩
  | next {b : Nat} {level : Level} {tighter : List Level} {left right : Expr} {x : Placed}
      {op : BinaryOp} {xs rest : List Placed} (hop : (x.lexeme, op) ∈ level.spellings)
      (hright : (Phrase.levels tighter).read b xs = .ok (right, rest))
      (hlow : (Expr.binary op left right x.position).height ≤ maxTreeHeight) :
      Leads ⟨b, .chain level tighter left, x :: xs⟩
        ⟨b, .chain level tighter (.binary op left right x.position), rest⟩
  | group {b p : Nat} {xs : List Placed} :
      Leads ⟨b + 1, .primary, ⟨.symbol .openParen, p⟩ :: xs⟩ ⟨b, .expression, xs⟩
  | call {b p q : Nat} {name : String} {xs : List Placed}
      (hargs : ∀ x ∈ xs.head?, x.lexeme ≠ .symbol .closeParen) :
      Leads ⟨b + 1, .primary, ⟨.identifier name, p⟩ :: ⟨.symbol .openParen, q⟩ :: xs⟩
        ⟨b, .arguments name (.byte p) [], xs⟩
  | argument {b : Nat} {name : String} {p : Position} {given : List Expr} {xs : List Placed} :
      Leads ⟨b, .arguments name p given, xs⟩ ⟨b, .expression, xs⟩
  | more {b q : Nat} {name : String} {p : Position} {given : List Expr} {a : Expr}
      {xs ys : List Placed}
      (hargument : Phrase.expression.read b xs = .ok (a, ⟨.symbol .comma, q⟩ :: ys)) :
      Leads ⟨b, .arguments name p given, xs⟩ ⟨b, .arguments name p (given ++ [a]), ys⟩

/-- How many goals the parser may come to before it reads a lexeme. -/
def rank : Phrase → Nat
  | .arguments _ _ _ => Level.loosestFirst.length + 3
  | .expression => Level.loosestFirst.length + 2
  | .levels ls => ls.length + 1
  | .chain _ _ _ | .primary => 0

/-- The measure that falls from a goal to the goals it leads to. -/
def measure (g : Goal) : Nat ×ₗ Nat := toLex (g.input.length, rank g.phrase)

/-- A new goal has fewer lexemes, or the same ones and a phrase of lower rank. -/
theorem Leads.measure_lt {g h : Goal} (hleads : g.Leads h) : h.measure < g.measure := by
  rw [measure, measure, Prod.Lex.toLex_lt_toLex]
  cases hleads with
  | condition | operand | first | argument => right; simp [rank]
  | prefixed | right | group => left; simp
  | call => left; simp only [List.length_cons]; omega
  | yes hcondition =>
      have hlt := (Phrase.read_rest_length hcondition).2 id
      left; simp at hlt ⊢; omega
  | no hcondition hyes =>
      have hlt := (Phrase.read_rest_length hcondition).2 id
      have hlt' := (Phrase.read_rest_length hyes).2 id
      left; simp at hlt hlt' ⊢; omega
  | others hfirst => exact .inl ((Phrase.read_rest_length hfirst).2 id)
  | next hop hright _ =>
      have hlt := (Phrase.read_rest_length hright).2 id
      left; simp; omega
  | more hargument =>
      have hlt := (Phrase.read_rest_length hargument).2 id
      left; simp at hlt ⊢; omega

theorem wellFounded_leads : WellFounded fun h g : Goal => g.Leads h :=
  (InvImage.wf measure wellFounded_lt).mono fun _ _ hleads => hleads.measure_lt

/-- To prove something of every goal, prove it for each sort of goal from the goals that one leads
to. -/
theorem induction {P : Goal → Prop}
    (expression : ∀ {b xs}, (∀ h, Leads ⟨b, .expression, xs⟩ h → P h) → P ⟨b, .expression, xs⟩)
    (operand : ∀ {b xs}, (∀ h, Leads ⟨b, .levels [], xs⟩ h → P h) → P ⟨b, .levels [], xs⟩)
    (level : ∀ {b xs level tighter}, (∀ h, Leads ⟨b, .levels (level :: tighter), xs⟩ h → P h) →
      P ⟨b, .levels (level :: tighter), xs⟩)
    (chain : ∀ {b xs level tighter left},
      (∀ h, Leads ⟨b, .chain level tighter left, xs⟩ h → P h) → P ⟨b, .chain level tighter left, xs⟩)
    (primary : ∀ {b xs}, (∀ h, Leads ⟨b, .primary, xs⟩ h → P h) → P ⟨b, .primary, xs⟩)
    (arguments : ∀ {b xs name p given},
      (∀ h, Leads ⟨b, .arguments name p given, xs⟩ h → P h) → P ⟨b, .arguments name p given, xs⟩)
    (g : Goal) : P g := by
  refine wellFounded_leads.induction g fun g ih => ?_
  obtain ⟨b, phrase, xs⟩ := g
  cases phrase with
  | expression => exact expression ih
  | levels ls =>
      cases ls with
      | nil => exact operand ih
      | cons l tighter => exact level ih
  | chain l tighter left => exact chain ih
  | primary => exact primary ih
  | arguments name p given => exact arguments ih

end Goal

end Reckon
