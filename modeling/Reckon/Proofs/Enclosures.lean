import Mathlib.Data.List.Basic
import Reckon.Proofs.Grammar
/-!
# What a lexeme stands inside of

Some constructs are open between two lexemes of an expression: parentheses that are not closed yet,
prefix operators whose operand is not complete, and branches of conditionals.  They are told by a
walk over the lexemes from the left, which keeps the open constructs as a stack and whether an
operand comes next.  The walk knows nothing of trees, of the levels of operators, or of limits.

No lexeme ends a prefix operator or the second branch of a conditional.  They are over when
something follows that cannot be a part of them, and only then the walk takes them off the stack.

* `around` — the walk;
* `enclosures` — what the next lexeme stands inside of;
* `Derives.leaves` — what a phrase leaves open behind it, which is over at the next lexeme.
-/

namespace Reckon

/-- What a lexeme can stand inside of. -/
inductive Enclosure where
  /-- Parentheses, of a group or around the arguments of a call. -/
  | parentheses
  /-- The operand of a prefix operator. -/
  | operand
  /-- The first branch of a conditional. -/
  | yes
  /-- The second branch of a conditional. -/
  | no
deriving DecidableEq

namespace Enclosure

/-- What is open of several constructs, the innermost first, where operands are complete. -/
def beyondOperands (es : List Enclosure) : List Enclosure := es.dropWhile (· = operand)

/-- What is open of several constructs where everything inside the innermost one of a sort is
complete. -/
def outward (c : Enclosure) (es : List Enclosure) : List Enclosure := es.dropWhile (· ≠ c)

/-- Prefix operators are over where something follows their operand. -/
theorem beyondOperands_append (k : Nat) {es : List Enclosure} (hes : es.head? ≠ some operand) :
    beyondOperands (List.replicate k operand ++ es) = es := by
  rw [beyondOperands, List.dropWhile_append_of_pos (by simp)]
  cases es with
  | nil => rfl
  | cons c es =>
      have hc : c ≠ operand := by simpa using hes
      exact List.dropWhile_cons_of_neg (by simpa using hc)

/-- Where a branch of a conditional or the inside of parentheses is complete, the constructs inside
it that no lexeme ends are over. -/
theorem outward_append {t es : List Enclosure} {c : Enclosure} (ht : ∀ d ∈ t, d = operand ∨ d = no)
    (hc : c = parentheses ∨ c = yes) : c.outward (t ++ c :: es) = c :: es := by
  rw [outward, List.dropWhile_append_of_pos, List.dropWhile_cons_of_neg (by simp)]
  intro d hd
  rcases ht d hd with rfl | rfl <;> rcases hc with rfl | rfl <;> decide

end Enclosure

open Enclosure

/-- What is known between two lexemes. -/
structure Surroundings where
  /-- The constructs that are open, the innermost first. -/
  enclosing : List Enclosure
  /-- Whether an operand comes next. -/
  expecting : Bool

namespace Surroundings

/-- The surroundings behind one more lexeme. -/
def pass (s : Surroundings) (l : Lexeme) : Surroundings :=
  match l with
  | .symbol .openParen => ⟨.parentheses :: s.enclosing, true⟩
  | .symbol .closeParen => ⟨(parentheses.outward s.enclosing).tail, false⟩
  | .symbol .comma => ⟨parentheses.outward s.enclosing, true⟩
  | .symbol .question => ⟨.yes :: beyondOperands s.enclosing, true⟩
  | .symbol .colon => ⟨.no :: (yes.outward s.enclosing).tail, true⟩
  | other =>
    if s.expecting then
      if other.unary?.isSome then ⟨.operand :: s.enclosing, true⟩ else ⟨s.enclosing, false⟩
    else ⟨beyondOperands s.enclosing, true⟩

/-- The surroundings behind several more lexemes. -/
def passAll (s : Surroundings) (xs : List Placed) : Surroundings :=
  xs.foldl (fun s x => s.pass x.lexeme) s

@[simp] theorem passAll_nil (s : Surroundings) : s.passAll [] = s := rfl

@[simp] theorem passAll_cons (s : Surroundings) (x : Placed) (xs : List Placed) :
    s.passAll (x :: xs) = (s.pass x.lexeme).passAll xs := rfl

@[simp] theorem passAll_append (s : Surroundings) (xs ys : List Placed) :
    s.passAll (xs ++ ys) = (s.passAll xs).passAll ys :=
  List.foldl_append

/-! ### Lexemes of each sort -/

variable {es : List Enclosure} {l : Lexeme}

theorem pass_literal {v : Value} (hvalue : l.literal? = some v) :
    pass ⟨es, true⟩ l = ⟨es, false⟩ := by
  cases l with
  | number | boolean | string => rfl
  | identifier | keyword | symbol => simp [Lexeme.literal?] at hvalue

theorem pass_prefix {op : UnaryOp} (hop : (l, op) ∈ UnaryOp.spellings) :
    pass ⟨es, true⟩ l = ⟨.operand :: es, true⟩ := by
  simp only [UnaryOp.spellings, List.mem_cons, Prod.mk.injEq, List.not_mem_nil, or_false] at hop
  rcases hop with ⟨rfl, -⟩ | ⟨rfl, -⟩ | ⟨rfl, -⟩ <;> rfl

theorem pass_binary {level : Level} {op : BinaryOp} (hop : (l, op) ∈ level.spellings) :
    pass ⟨es, false⟩ l = ⟨beyondOperands es, true⟩ := by
  obtain rfl := level_of_mem_spellings hop
  rw [← binary?_eq_some_iff] at hop
  cases l with
  | symbol s => cases s <;> first | rfl | simp [Lexeme.binary?, Symbol.binary?] at hop
  | keyword => rfl
  | number | boolean | string | identifier => simp [Lexeme.binary?] at hop

end Surroundings

/-! ### What is open behind a phrase -/

open Surroundings in
/-- What the lexemes of a phrase do to the surroundings.  A primary phrase leaves them as they are,
a chain may leave prefix operators open, and an expression second branches as well.  A prefix
operator does not reach over an operator: only an operand without one stands directly inside. -/
def Phrase.Leaves : Phrase → List Placed → Prop
  | expression, w => ∀ es : List Enclosure, es.head? ≠ some .operand →
    ∃ t, (∀ c ∈ t, c = .operand ∨ c = .no) ∧ passAll ⟨es, true⟩ w = ⟨t ++ es, false⟩
  | levels ls, w => ∀ es : List Enclosure, (ls ≠ [] → es.head? ≠ some .operand) →
    ∃ k, passAll ⟨es, true⟩ w = ⟨List.replicate k .operand ++ es, false⟩
  | chain _ _ _, w => ∀ (es : List Enclosure) (k : Nat), es.head? ≠ some .operand →
    ∃ j, passAll ⟨List.replicate k .operand ++ es, false⟩ w =
      ⟨List.replicate j .operand ++ es, false⟩
  | primary, w => ∀ es, passAll ⟨es, true⟩ w = ⟨es, false⟩
  | arguments _ _ _, w => ∀ es, passAll ⟨.parentheses :: es, true⟩ w = ⟨es, false⟩

/-- **What a phrase leaves open.** -/
theorem Derives.leaves {g : Phrase} {w : List Placed} {e : Expr} {n : Nat} (h : Derives g w e n) :
    g.Leaves w := by
  induction h with
  | plain _ ih =>
      intro es hes
      obtain ⟨k, hk⟩ := ih es fun _ => hes
      exact ⟨_, fun c hc => .inl (List.eq_of_mem_replicate hc), hk⟩
  | conditional _ _ _ ihc ihy ihn =>
      intro es hes
      obtain ⟨k, hk⟩ := ihc es fun _ => hes
      obtain ⟨t, ht, hyes⟩ := ihy (.yes :: es) (by simp)
      obtain ⟨u, hu, hno⟩ := ihn (.no :: es) (by simp)
      refine ⟨u ++ [.no], ?_, ?_⟩
      · simpa [or_imp, forall_and] using hu
      · simp [hk, Surroundings.pass, beyondOperands_append k hes, hyes,
          outward_append ht (.inr rfl), hno]
  | operand _ ih =>
      intro es _
      exact ⟨0, by simpa using ih es⟩
  | prefixed hop _ ih =>
      intro es _
      obtain ⟨k, hk⟩ := ih (.operand :: es) (by simp)
      refine ⟨k + 1, ?_⟩
      rw [Surroundings.passAll_cons, Surroundings.pass_prefix hop, hk, List.replicate_succ']
      simp
  | level _ _ ihf iho =>
      intro es hes
      have hes := hes (by simp)
      obtain ⟨k, hk⟩ := ihf es fun _ => hes
      obtain ⟨j, hj⟩ := iho es k hes
      exact ⟨j, by rw [Surroundings.passAll_append, hk, hj]⟩
  | done => exact fun es k _ => ⟨k, rfl⟩
  | operator hop _ _ iho ihr =>
      intro es k hes
      obtain ⟨i, hi⟩ := iho es fun _ => hes
      obtain ⟨j, hj⟩ := ihr es i hes
      refine ⟨j, ?_⟩
      rw [Surroundings.passAll_cons, Surroundings.pass_binary hop, beyondOperands_append k hes,
        Surroundings.passAll_append, hi, hj]
  | literal hvalue => exact fun es => Surroundings.pass_literal hvalue
  | var => exact fun es => rfl
  | emptyCall =>
      intro es
      have hclose : parentheses.outward ([] ++ parentheses :: es) = parentheses :: es :=
        outward_append (by simp) (.inl rfl)
      simpa [Surroundings.pass, Lexeme.unary?] using congrArg List.tail hclose
  | call _ ih =>
      intro es
      simpa [Surroundings.pass, Lexeme.unary?] using ih es
  | group _ ih =>
      intro es
      obtain ⟨t, ht, hinner⟩ := ih (.parentheses :: es) (by simp)
      simp [Surroundings.pass, hinner, outward_append ht (.inl rfl)]
  | lastArgument _ ih =>
      intro es
      obtain ⟨t, ht, hlast⟩ := ih (.parentheses :: es) (by simp)
      simp [Surroundings.pass, hlast, outward_append ht (.inl rfl)]
  | argument _ _ ih iho =>
      intro es
      obtain ⟨t, ht, hnext⟩ := ih (.parentheses :: es) (by simp)
      simp [Surroundings.pass, hnext, outward_append ht (.inl rfl), iho es]

/-! ### Between the lexemes of an expression -/

/-- The surroundings behind the first lexemes of an expression. -/
def around (before : List Placed) : Surroundings := Surroundings.passAll ⟨[], true⟩ before

/-- What the lexeme behind the first ones of an expression stands inside of.  Where an operand is
complete, prefix operators are over, unless the operand is a name and the lexeme makes it a call. -/
def enclosures (before : List Placed) (l : Lexeme) : List Enclosure :=
  let s := around before
  if s.expecting || l = .symbol .openParen then s.enclosing
  else beyondOperands s.enclosing

/-- A condition in the arguments of a call, with the operand of a prefix operator at its end. -/
example : enclosures [⟨.identifier "f", 0⟩, ⟨.symbol .openParen, 1⟩, ⟨.symbol .minus, 2⟩,
    ⟨.identifier "a", 3⟩] (.symbol .question) = [parentheses] := by decide

/-- The lexeme behind the first ones of an expression opens a construct: a group or the operand of a
prefix operator where an operand is expected, the arguments of a call behind a name, or the branches
of a conditional behind its condition. -/
def Opens (before : List Placed) (l : Lexeme) : Prop :=
  if (around before).expecting then l = .symbol .openParen ∨ ∃ op, (l, op) ∈ UnaryOp.spellings
  else l = .symbol .question ∨
    l = .symbol .openParen ∧ ∃ y ∈ before.getLast?, ∃ name, y.lexeme = .identifier name

end Reckon
