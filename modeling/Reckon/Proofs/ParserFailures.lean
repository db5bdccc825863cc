import Mathlib.Logic.Relation
import Reckon.Proofs.ParserGoals
/-!
# Where the parser stops

A parser fails at a goal when it comes to a further goal at which it stops: an operand, a closing
parenthesis or a colon is missing there, or a limit is exceeded.  The error depends on the reason
and on the lexemes that are left, and it always points at the first of them, or at the end of the
input when none is left.

* `Goal.Halts` — the parser stops at a goal, with a rule for each place at which an error is raised;
* `Goal.outcome_eq_error_iff` — a goal fails iff a goal that it leads to halts, with the same error.
-/

namespace Reckon

open Reckon.Parser

/-- Why the parser stops. -/
inductive Stop where
  | operand
  | closeParen
  | colon
  | nesting
  | height
  | trailing

/-- The fault that is reported when the given lexemes are left. -/
def Stop.fault : Stop → List Placed → Fault
  | operand, [] => .unexpectedEnd
  | operand, x :: _ => .unexpectedToken x.lexeme.shown
  | closeParen, _ => .expectedClosingParen
  | colon, _ => .expectedColon
  | nesting, _ | height, _ => .nestingTooDeep
  | trailing, [] => .unexpectedEnd
  | trailing, x :: _ =>
    if x.lexeme = .symbol .closeParen then .unmatchedClosingParen
    else .trailingTokens x.lexeme.shown

/-- The error that is reported when the given lexemes are left. -/
def Stop.error (why : Stop) (rest : List Placed) : SyntaxError := missing (why.fault rest) rest

/-- Only the first lexeme that is left matters for the error. -/
theorem Stop.error_cons (why : Stop) (x : Placed) (xs ys : List Placed) :
    why.error (x :: xs) = why.error (x :: ys) := by
  cases why <;> rfl

theorem Stop.error_trailing (x : Placed) (xs : List Placed) :
    Stop.error .trailing (x :: xs) = .trailing x := by
  simp only [Stop.error, Stop.fault, SyntaxError.trailing, missing]
  split <;> rfl

/-- Only the limits have the fault that they report. -/
theorem Stop.limit_of_fault {why : Stop} {rest : List Placed}
    (h : why.fault rest = .nestingTooDeep) : why = .nesting ∨ why = .height := by
  cases why with
  | nesting => exact .inl rfl
  | height => exact .inr rfl
  | closeParen | colon => cases h
  | operand => cases rest <;> cases h
  | trailing =>
      cases rest with
      | nil => cases h
      | cons x rest =>
          simp only [Stop.fault] at h
          split at h <;> cases h

/-- The lexeme starts a literal, a name or a group. -/
def Lexeme.StartsPrimary (l : Lexeme) : Prop :=
  l = .symbol .openParen ∨ (∃ name, l = .identifier name) ∨ ∃ v, l.literal? = some v

namespace Goal

/-- The parser stops at the goal, for the given reason and with the given lexemes left. -/
inductive Halts : Goal → Stop → List Placed → Prop
  | operand {b : Nat} {xs : List Placed} (hnone : ∀ x ∈ xs.head?, ¬ x.lexeme.StartsPrimary) :
      Halts ⟨b, .primary, xs⟩ .operand xs
  | question {p : Nat} {xs ys : List Placed} {c : Expr}
      (hcondition : (Phrase.levels Level.loosestFirst).read 0 xs =
        .ok (c, ⟨.symbol .question, p⟩ :: ys)) :
      Halts ⟨0, .expression, xs⟩ .nesting (⟨.symbol .question, p⟩ :: ys)
  | colon {b p : Nat} {xs ys rest : List Placed} {c y : Expr}
      (hcondition : (Phrase.levels Level.loosestFirst).read (b + 1) xs =
        .ok (c, ⟨.symbol .question, p⟩ :: ys))
      (hyes : Phrase.expression.read b ys = .ok (y, rest))
      (hcolon : ∀ x ∈ rest.head?, x.lexeme ≠ .symbol .colon) :
      Halts ⟨b + 1, .expression, xs⟩ .colon rest
  | prefixed {x : Placed} {xs : List Placed} {op : UnaryOp}
      (hop : (x.lexeme, op) ∈ UnaryOp.spellings) :
      Halts ⟨0, .levels [], x :: xs⟩ .nesting (x :: xs)
  | tooHigh {b : Nat} {level : Level} {tighter : List Level} {left right : Expr} {x : Placed}
      {op : BinaryOp} {xs rest : List Placed} (hop : (x.lexeme, op) ∈ level.spellings)
      (hright : (Phrase.levels tighter).read b xs = .ok (right, rest))
      (htall : maxTreeHeight < (Expr.binary op left right x.position).height) :
      Halts ⟨b, .chain level tighter left, x :: xs⟩ .height (x :: xs)
  | openGroup {p : Nat} {xs : List Placed} :
      Halts ⟨0, .primary, ⟨.symbol .openParen, p⟩ :: xs⟩ .nesting (⟨.symbol .openParen, p⟩ :: xs)
  | openCall {p q : Nat} {name : String} {xs : List Placed} :
      Halts ⟨0, .primary, ⟨.identifier name, p⟩ :: ⟨.symbol .openParen, q⟩ :: xs⟩ .nesting
        (⟨.symbol .openParen, q⟩ :: xs)
  | closeGroup {b p : Nat} {xs rest : List Placed} {e : Expr}
      (hinner : Phrase.expression.read b xs = .ok (e, rest))
      (hclose : ∀ x ∈ rest.head?, x.lexeme ≠ .symbol .closeParen) :
      Halts ⟨b + 1, .primary, ⟨.symbol .openParen, p⟩ :: xs⟩ .closeParen rest
  | closeCall {b : Nat} {name : String} {p : Position} {given : List Expr} {a : Expr}
      {xs rest : List Placed} (hargument : Phrase.expression.read b xs = .ok (a, rest))
      (hclose : ∀ x ∈ rest.head?, x.lexeme ≠ .symbol .comma ∧ x.lexeme ≠ .symbol .closeParen) :
      Halts ⟨b, .arguments name p given, xs⟩ .closeParen rest

/-- Working at the goal, the parser comes to a goal at which it stops. -/
def Fails (g : Goal) (why : Stop) (rest : List Placed) : Prop :=
  ∃ h, Relation.ReflTransGen Leads g h ∧ h.Halts why rest

theorem Halts.fails {g : Goal} {why : Stop} {rest : List Placed} (h : g.Halts why rest) :
    g.Fails why rest :=
  ⟨g, .refl, h⟩

theorem Fails.of_leads {g h : Goal} {why : Stop} {rest : List Placed} (hleads : g.Leads h)
    (hfails : h.Fails why rest) : g.Fails why rest := by
  obtain ⟨k, hpath, hhalts⟩ := hfails
  exact ⟨k, .head hleads hpath, hhalts⟩

/-! ### A stop is an error of every goal before it -/

/-- A goal at which the parser stops has the error of the stop. -/
theorem Halts.outcome {g : Goal} {why : Stop} {rest : List Placed} (h : g.Halts why rest) :
    g.outcome = .error (why.error rest) := by
  cases h with
  | operand hnone =>
      cases rest with
      | nil => rfl
      | cons x xs =>
          have hnone := hnone x rfl
          unfold Lexeme.StartsPrimary at hnone
          push Not at hnone
          change Phrase.primary.read _ _ = _
          rw [Phrase.read_primary_cons]
          split
          · next hx => exact absurd hx hnone.1
          · next name hx => exact absurd hx (hnone.2.1 name)
          · rw [Option.eq_none_iff_forall_ne_some.mpr hnone.2.2]
            rfl
  | question hcondition =>
      change Phrase.expression.read _ _ = _
      rw [Phrase.read_expression, hcondition]
      rfl
  | colon hcondition hyes hcolon =>
      change Phrase.expression.read _ _ = _
      rw [Phrase.read_expression, hcondition]
      simp only [ok_bind, Phrase.readBranches, within, hyes]
      rw [after_eq_error_iff.mpr ⟨hcolon, rfl⟩]
      rfl
  | prefixed hop =>
      change (Phrase.levels []).read _ _ = _
      rw [Phrase.read_prefixed hop]
      rfl
  | tooHigh hop hright htall =>
      change (Phrase.chain _ _ _).read _ _ = _
      rw [Phrase.read_chain_operator hop, hright, ok_bind, if_pos htall]
      rfl
  | openGroup => rfl
  | openCall => rfl
  | closeGroup hinner hclose =>
      change Phrase.primary.read _ _ = _
      rw [Phrase.read_primary_cons]
      simp only [within, ok_bind, hinner]
      rw [after_eq_error_iff.mpr ⟨hclose, rfl⟩]
      rfl
  | closeCall hargument hclose =>
      change (Phrase.arguments _ _ _).read _ _ = _
      rw [Phrase.read_arguments, hargument, ok_bind]
      dsimp only
      unfold Phrase.readMore
      split
      · next q others => exact absurd rfl (hclose ⟨.symbol .comma, q⟩ rfl).1
      · rw [after_eq_error_iff.mpr ⟨fun x hx => (hclose x hx).2, rfl⟩]
        rfl

/-- An error of a goal is an error of the goals that lead to it. -/
theorem Leads.outcome_error {g h : Goal} {e : SyntaxError} (hleads : g.Leads h)
    (herror : h.outcome = .error e) : g.outcome = .error e := by
  unfold outcome at herror ⊢
  cases hleads with
  | condition => rw [Phrase.read_expression, herror, error_bind]
  | yes hcondition =>
      rw [Phrase.read_expression, hcondition]
      simp only [ok_bind, Phrase.readBranches, within]
      rw [herror, error_bind]
  | no hcondition hyes =>
      rw [Phrase.read_expression, hcondition]
      simp only [ok_bind, Phrase.readBranches, within, hyes, after, ↓reduceIte]
      rw [herror, error_bind]
  | prefixed hop =>
      rw [Phrase.read_prefixed hop]
      simp only [within, ok_bind]
      rw [herror, error_bind]
  | operand hop =>
      rw [Phrase.read_operand_of_none hop]
      exact herror
  | first => rw [Phrase.read_level, herror, error_bind]
  | others hfirst => rw [Phrase.read_level, hfirst, ok_bind, herror]
  | right hop =>
      rw [Phrase.read_chain_operator hop, herror, error_bind]
  | next hop hright hlow =>
      rw [Phrase.read_chain_operator hop, hright, ok_bind, if_neg (Nat.not_lt_of_le hlow), herror]
  | group =>
      rw [Phrase.read_primary_cons]
      simp only [within, ok_bind]
      rw [herror, error_bind]
  | @call b p q name xs hargs =>
      rw [Phrase.read_primary_cons]
      simp only [Phrase.readNamed, within, ok_bind]
      rw [Phrase.readArguments_of_ne hargs]
      exact herror
  | argument => rw [Phrase.read_arguments, herror, error_bind]
  | more hargument =>
      rw [Phrase.read_arguments, hargument, ok_bind]
      exact herror

theorem outcome_error_of_path {g h : Goal} {e : SyntaxError}
    (hpath : Relation.ReflTransGen Leads g h) (herror : h.outcome = .error e) :
    g.outcome = .error e := by
  induction hpath using Relation.ReflTransGen.head_induction_on with
  | refl => exact herror
  | head hleads _ ih => exact hleads.outcome_error ih

/-- A stop is an error of every goal that leads to it. -/
theorem Fails.outcome {g : Goal} {why : Stop} {rest : List Placed} (h : g.Fails why rest) :
    g.outcome = .error (why.error rest) := by
  obtain ⟨k, hpath, hhalts⟩ := h
  exact outcome_error_of_path hpath hhalts.outcome

/-! ### Every error comes from a stop -/

/-- The errors of the goal come from stops. -/
def Explained (g : Goal) : Prop :=
  ∀ e, g.outcome = .error e → ∃ why rest, g.Fails why rest ∧ e = why.error rest

/-- An error of a further goal comes from a stop. -/
theorem Explained.of_leads {g h : Goal} {e : SyntaxError} (hexplained : h.Explained)
    (hleads : g.Leads h) (herror : h.outcome = .error e) :
    ∃ why rest, g.Fails why rest ∧ e = why.error rest := by
  obtain ⟨why, rest, hfails, he⟩ := hexplained e herror
  exact ⟨why, rest, .of_leads hleads hfails, he⟩

section Steps

variable {b : Nat} {xs : List Placed}

theorem explained_expression (ih : ∀ h, Leads ⟨b, .expression, xs⟩ h → h.Explained) :
    Explained ⟨b, .expression, xs⟩ := by
  intro e herror
  change Phrase.expression.read b xs = _ at herror
  rw [Phrase.read_expression, bind_eq_error_iff] at herror
  rcases herror with hcondition | ⟨⟨c, r⟩, hcondition, herror⟩
  · exact (ih _ .condition).of_leads .condition hcondition
  · dsimp only at herror
    unfold Phrase.readBranches at herror
    split at herror
    · next p ys =>
      cases b with
      | zero =>
          cases herror
          exact ⟨.nesting, _, (Halts.question hcondition).fails, rfl⟩
      | succ b =>
          simp only [within, ok_bind, bind_eq_error_iff, after_eq_error_iff, after_eq_ok_iff]
            at herror
          rcases herror with hyes | ⟨⟨y, r⟩, hyes, herror⟩
          · exact (ih _ (.yes hcondition)).of_leads (.yes hcondition) hyes
          · rcases herror with ⟨hcolon, rfl⟩ | ⟨zs, ⟨q, rfl⟩, herror⟩
            · exact ⟨.colon, r, (Halts.colon hcondition hyes hcolon).fails, rfl⟩
            · rcases herror with hno | ⟨_, _, herror⟩
              · exact (ih _ (.no hcondition hyes)).of_leads (.no hcondition hyes) hno
              · cases herror
    · cases herror

theorem explained_operand (ih : ∀ h, Leads ⟨b, .levels [], xs⟩ h → h.Explained) :
    Explained ⟨b, .levels [], xs⟩ := by
  intro e herror
  change (Phrase.levels []).read b xs = _ at herror
  cases xs with
  | nil => exact (ih _ (.operand (by simp))).of_leads (.operand (by simp)) herror
  | cons x xs =>
      rw [Phrase.read_operand_cons] at herror
      split at herror
      · next op hop =>
        have hop := unary?_eq_some_iff.mp hop
        cases b with
        | zero =>
            cases herror
            exact ⟨.nesting, _, (Halts.prefixed hop).fails, rfl⟩
        | succ b =>
            simp only [within, ok_bind, bind_eq_error_iff] at herror
            rcases herror with hinner | ⟨_, _, herror⟩
            · exact (ih _ (.prefixed hop)).of_leads (.prefixed hop) hinner
            · cases herror
      · next hop =>
        have hop : ∀ y ∈ (x :: xs).head?, y.lexeme.unary? = none := by simpa using hop
        exact (ih _ (.operand hop)).of_leads (.operand hop) herror

theorem explained_level {level : Level} {tighter : List Level}
    (ih : ∀ h, Leads ⟨b, .levels (level :: tighter), xs⟩ h → h.Explained) :
    Explained ⟨b, .levels (level :: tighter), xs⟩ := by
  intro e herror
  change (Phrase.levels (level :: tighter)).read b xs = _ at herror
  rw [Phrase.read_level, bind_eq_error_iff] at herror
  rcases herror with hfirst | ⟨⟨a, r⟩, hfirst, hothers⟩
  · exact (ih _ .first).of_leads .first hfirst
  · exact (ih _ (.others hfirst)).of_leads (.others hfirst) hothers

theorem explained_chain {level : Level} {tighter : List Level} {left : Expr}
    (ih : ∀ h, Leads ⟨b, .chain level tighter left, xs⟩ h → h.Explained) :
    Explained ⟨b, .chain level tighter left, xs⟩ := by
  intro e herror
  change (Phrase.chain level tighter left).read b xs = _ at herror
  cases xs with
  | nil =>
      rw [Phrase.read_chain_nil] at herror
      cases herror
  | cons x xs =>
      rw [Phrase.read_chain_cons] at herror
      split at herror
      · cases herror
      · next op hop =>
        have hop := operatorOf?_eq_some_iff.mp hop
        rw [bind_eq_error_iff] at herror
        rcases herror with hright | ⟨⟨right, r⟩, hright, herror⟩
        · exact (ih _ (.right hop)).of_leads (.right hop) hright
        · dsimp only at herror
          split at herror
          · next htall =>
            cases herror
            exact ⟨.height, _, (Halts.tooHigh hop hright htall).fails, rfl⟩
          · next hlow =>
            have hnext := Leads.next hop hright (Nat.le_of_not_lt hlow)
            exact (ih _ hnext).of_leads hnext herror

theorem explained_arguments {name : String} {p : Position} {given : List Expr}
    (ih : ∀ h, Leads ⟨b, .arguments name p given, xs⟩ h → h.Explained) :
    Explained ⟨b, .arguments name p given, xs⟩ := by
  intro e herror
  change (Phrase.arguments name p given).read b xs = _ at herror
  rw [Phrase.read_arguments, bind_eq_error_iff] at herror
  rcases herror with hargument | ⟨⟨a, r⟩, hargument, herror⟩
  · exact (ih _ .argument).of_leads .argument hargument
  · dsimp only at herror
    unfold Phrase.readMore at herror
    split at herror
    · next q ys => exact (ih _ (.more hargument)).of_leads (.more hargument) herror
    · next hcomma =>
      simp only [bind_eq_error_iff, after_eq_error_iff] at herror
      rcases herror with ⟨hclose, rfl⟩ | ⟨_, _, herror⟩
      · have hne := head?_ne_of_not_cons hcomma
        have hneither := fun x hx => And.intro (hne x hx) (hclose x hx)
        exact ⟨.closeParen, r, (Halts.closeCall hargument hneither).fails, rfl⟩
      · cases herror

/-- The part of `explained_primary` after a name. -/
theorem explained_named {name : String} {p : Nat} {e : SyntaxError}
    (ih : ∀ h, Leads ⟨b, .primary, ⟨.identifier name, p⟩ :: xs⟩ h → h.Explained)
    (herror : Phrase.readNamed b name (.byte p) xs = .error e) :
    ∃ why rest, Fails ⟨b, .primary, ⟨.identifier name, p⟩ :: xs⟩ why rest ∧ e = why.error rest := by
  unfold Phrase.readNamed at herror
  split at herror
  · next q ys =>
    cases b with
    | zero =>
        cases herror
        exact ⟨.nesting, _, Halts.openCall.fails, rfl⟩
    | succ b =>
        simp only [within, ok_bind] at herror
        by_cases hargs : ∀ x ∈ ys.head?, x.lexeme ≠ .symbol .closeParen
        · rw [Phrase.readArguments_of_ne hargs] at herror
          exact (ih _ (.call hargs)).of_leads (.call hargs) herror
        · push Not at hargs
          obtain ⟨⟨l, r⟩, hl, rfl⟩ := hargs
          obtain ⟨zs, rfl⟩ := List.head?_eq_some_iff.mp hl
          cases herror
  · cases herror

theorem explained_primary (ih : ∀ h, Leads ⟨b, .primary, xs⟩ h → h.Explained) :
    Explained ⟨b, .primary, xs⟩ := by
  intro e herror
  change Phrase.primary.read b xs = _ at herror
  cases xs with
  | nil =>
      cases herror
      exact ⟨.operand, _, (Halts.operand (by simp)).fails, rfl⟩
  | cons x xs =>
      obtain ⟨l, p⟩ := x
      rw [Phrase.read_primary_cons] at herror
      split at herror
      · next hl =>
        obtain rfl : l = _ := hl
        cases b with
        | zero =>
            cases herror
            exact ⟨.nesting, _, Halts.openGroup.fails, rfl⟩
        | succ b =>
            simp only [within, ok_bind, bind_eq_error_iff, after_eq_error_iff] at herror
            rcases herror with hinner | ⟨⟨a, r⟩, hinner, ⟨hclose, rfl⟩ | ⟨_, _, herror⟩⟩
            · exact (ih _ .group).of_leads .group hinner
            · exact ⟨.closeParen, r, (Halts.closeGroup hinner hclose).fails, rfl⟩
            · cases herror
      · next name hl =>
        obtain rfl : l = _ := hl
        exact explained_named ih herror
      · next hparen hname =>
        split at herror
        · cases herror
        · next hliteral =>
          cases herror
          refine ⟨.operand, _, (Halts.operand fun x hx => ?_).fails, rfl⟩
          obtain rfl := Option.some.inj hx
          intro hstarts
          rcases hstarts with hx | ⟨name, hx⟩ | ⟨v, hx⟩
          · exact hparen hx
          · exact hname name hx
          · rw [hliteral] at hx
            cases hx

end Steps

/-- Every error of a goal comes from a stop. -/
theorem explained (g : Goal) : g.Explained :=
  g.induction explained_expression explained_operand explained_level explained_chain
    explained_primary explained_arguments

/-- **A goal fails iff it comes to a stop**, and the error is the one of the stop. -/
theorem outcome_eq_error_iff {g : Goal} {e : SyntaxError} :
    g.outcome = .error e ↔ ∃ why rest, g.Fails why rest ∧ e = why.error rest := by
  refine ⟨g.explained e, fun h => ?_⟩
  obtain ⟨why, rest, hfails, rfl⟩ := h
  exact hfails.outcome

end Goal

/-! ### Whole lists of lexemes -/

/-- The parser stops while it reads all of the lexemes as an expression, at a goal or at a lexeme
after a complete expression. -/
inductive Rejects (xs : List Placed) : Stop → List Placed → Prop
  | inside {why : Stop} {rest : List Placed} (hfails : Goal.Fails ⟨maxNesting, .expression, xs⟩ why rest) :
      Rejects xs why rest
  | trailing {tree : Expr} {x : Placed} {rest : List Placed}
      (hread : Phrase.expression.read maxNesting xs = .ok (tree, x :: rest)) :
      Rejects xs .trailing (x :: rest)

/-- A list of lexemes is rejected iff the parser stops, with the error of the stop. -/
theorem parseLexemes_eq_error_iff {xs : List Placed} {e : SyntaxError} (hne : xs ≠ []) :
    parseLexemes xs = .error e ↔ ∃ why rest, Rejects xs why rest ∧ e = why.error rest := by
  rw [parseLexemes_eq hne, bind_eq_error_iff]
  constructor
  · intro herror
    rcases herror with hinside | ⟨⟨tree, rest⟩, hread, herror⟩
    · have houtcome := Goal.outcome_eq_error_iff (g := ⟨maxNesting, .expression, xs⟩) (e := e)
      obtain ⟨why, rest, hfails, he⟩ := houtcome.mp hinside
      exact ⟨why, rest, .inside hfails, he⟩
    · cases rest with
      | nil => cases herror
      | cons x rest =>
          cases herror
          exact ⟨.trailing, _, .trailing hread, (Stop.error_trailing x rest).symm⟩
  · intro hrejects
    obtain ⟨why, rest, hrejects, rfl⟩ := hrejects
    cases hrejects with
    | inside hfails => exact .inl hfails.outcome
    | @trailing tree x rest hread =>
        exact .inr ⟨_, hread, by rw [Stop.error_trailing]; rfl⟩

end Reckon
