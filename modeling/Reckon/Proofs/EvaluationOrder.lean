import Reckon.Evaluation
import Reckon.Proofs.TreePaths
/-!
# Which nodes an evaluation reaches

An evaluation is followed down the tree.  A node hands over to its operands from left to right, and
to each of them only after the ones before it have a value: to the right operand of `&&` and `||`
if the left one leaves the result open, and to the branch of a conditional that the condition
selects.  When a node is reached, the host has a history, which is everything asked so far.

* `Enters` — a node hands over to one of its operands;
* `Reached` — the nodes that an evaluation comes to, with their histories;
* `Asks`, `Raises` — what a node asks of the host, and the errors it raises, by itself;
* `fails_iff` — an evaluation fails iff it reaches a node that raises an error, with that error and
  that history.
-/

open Reckon.Expr

namespace Reckon

/-! ### Runs -/

/-- The expression has a value at the host, which was asked `h` before and `g` after it. -/
def Yields (host : Host) (h : List Request) (e : Expr) (v : Value) (g : List Request) : Prop :=
  e.evaluate.runAfter host h = ⟨.ok v, g⟩

/-- The expression has no value at the host, which was asked `h` before it and `g` in all. -/
def Fails (host : Host) (h : List Request) (e : Expr) (error : EvalError) (g : List Request) :
    Prop :=
  e.evaluate.runAfter host h = ⟨.error error, g⟩

/-- Several expressions have values, one after the other. -/
inductive YieldsAll (host : Host) :
    List Request → List Expr → List Value → List Request → Prop
  | nil (h : List Request) : YieldsAll host h [] [] h
  | cons {h g k : List Request} {e : Expr} {es : List Expr} {v : Value} {vs : List Value}
      (hhead : Yields host h e v g) (htail : YieldsAll host g es vs k) :
      YieldsAll host h (e :: es) (v :: vs) k

section Runs

variable {host : Host} {h g k : List Request} {e : Expr}

theorem yields_or_fails (host : Host) (h : List Request) (e : Expr) :
    (∃ v g, Yields host h e v g) ∨ ∃ error g, Fails host h e error g := by
  rcases hrun : e.evaluate.runAfter host h with ⟨_ | _, g⟩
  · exact .inr ⟨_, g, hrun⟩
  · exact .inl ⟨_, g, hrun⟩

theorem Yields.unique {v w : Value} (hv : Yields host h e v g) (hw : Yields host h e w k) :
    v = w ∧ g = k := by
  cases hv.symm.trans hw
  exact ⟨rfl, rfl⟩

/-- How an evaluation goes decides which value it has and what was asked until then. -/
theorem Yields.iff {v w : Value} (hv : Yields host h e v g) :
    Yields host h e w k ↔ w = v ∧ k = g := by
  constructor
  · intro hw
    obtain ⟨rfl, rfl⟩ := hv.unique hw
    exact ⟨rfl, rfl⟩
  · rintro ⟨rfl, rfl⟩
    exact hv

theorem Fails.not_yields {error : EvalError} {v : Value} (hfail : Fails host h e error g) :
    ¬ Yields host h e v k := by
  intro hyield
  cases hfail.symm.trans hyield

theorem YieldsAll.unique {es : List Expr} {vs ws : List Value} (hvs : YieldsAll host h es vs g)
    (hws : YieldsAll host h es ws k) : vs = ws ∧ g = k := by
  induction hvs generalizing ws with
  | nil => cases hws; exact ⟨rfl, rfl⟩
  | cons hhead htail ih =>
    obtain _ | ⟨hhead', htail'⟩ := hws
    obtain ⟨rfl, rfl⟩ := hhead.unique hhead'
    obtain ⟨rfl, rfl⟩ := ih htail'
    exact ⟨rfl, rfl⟩

/-- The values of several expressions are the values of each, in order. -/
theorem yieldsAll_iff {es : List Expr} {vs : List Value} :
    YieldsAll host h es vs g ↔ (evaluateAll es).runAfter host h = ⟨.ok vs, g⟩ := by
  constructor
  · intro hall
    induction hall with
    | nil => rfl
    | cons hhead htail ih =>
      exact Dialogue.runAfter_bind_eq_ok_iff.mpr ⟨_, _, hhead,
        Dialogue.runAfter_bind_eq_ok_iff.mpr ⟨_, _, ih, rfl⟩⟩
  · intro hrun
    induction es generalizing h vs with
    | nil => cases hrun; exact .nil _
    | cons e es ih =>
      obtain ⟨v, k, hhead, hrest⟩ := Dialogue.runAfter_bind_eq_ok_iff.mp hrun
      obtain ⟨ws, l, htail, hdone⟩ := Dialogue.runAfter_bind_eq_ok_iff.mp hrest
      cases hdone
      exact .cons hhead (ih htail)

/-- Several expressions have no values iff one of them has none, after the ones before it. -/
theorem evaluateAll_eq_error_iff {es : List Expr} {error : EvalError} :
    (evaluateAll es).runAfter host h = ⟨.error error, g⟩ ↔
      ∃ i a vs k, es[i]? = some a ∧ YieldsAll host h (es.take i) vs k ∧ Fails host k a error g := by
  constructor
  · intro hrun
    induction es generalizing h with
    | nil => cases hrun
    | cons e es ih =>
      rcases Dialogue.runAfter_bind_eq_error_iff.mp hrun with hhead | ⟨v, k, hhead, hrest⟩
      · exact ⟨0, e, [], h, rfl, .nil h, hhead⟩
      · rcases Dialogue.runAfter_bind_eq_error_iff.mp hrest with htail | ⟨_, _, -, hdone⟩
        · obtain ⟨i, a, vs, l, hat, hbefore, hfail⟩ := ih htail
          exact ⟨i + 1, a, v :: vs, l, hat, .cons hhead hbefore, hfail⟩
        · cases hdone
  · rintro ⟨i, a, vs, k, hat, hbefore, hfail⟩
    induction es generalizing i h vs with
    | nil => simp at hat
    | cons e es ih =>
      cases i with
      | zero =>
        cases hat
        cases hbefore
        exact Dialogue.runAfter_bind_eq_error_iff.mpr (.inl hfail)
      | succ i =>
        obtain _ | ⟨hhead, htail⟩ := hbefore
        exact Dialogue.runAfter_bind_eq_error_iff.mpr (.inr ⟨_, _, hhead,
          Dialogue.runAfter_bind_eq_error_iff.mpr (.inl (ih i _ hat htail))⟩)

end Runs

/-! ### What a node does -/

/-- Where its left operand leaves the result open, a conjunction or a disjunction has the value
that the operator has for both operands. -/
theorem evaluate_binary (op : BinaryOp) (left right : Expr) (p : Position) :
    (binary op left right p).evaluate = (do
      let l ← left.evaluate
      if op.decidedBy? = some l.toBool then return .boolean l.toBool
      else do
        let r ← right.evaluate
        .ofExcept (op.apply l r)) := by
  rw [evaluate]
  congr 1
  funext l
  -- An open conjunction has a true left operand and an open disjunction a false one, so that `apply`
  -- gives the truth value of the right one.
  cases op <;> cases hl : l.toBool <;>
    simp [BinaryOp.decidedBy?, BinaryOp.apply, BinaryOp.logic, hl, Dialogue.ofExcept] <;> rfl

section Nodes

variable (host : Host)

/-- A node with some history hands over to one of its operands, which is given with its place among
the operands and with the history at which it is taken up. -/
inductive Enters : Expr → List Request → Nat → Expr → List Request → Prop
  | operand {h : List Request} {op : UnaryOp} {a : Expr} {p : Position} :
      Enters (.unary op a p) h 0 a h
  | left {h : List Request} {op : BinaryOp} {a b : Expr} {p : Position} :
      Enters (.binary op a b p) h 0 a h
  /-- The right operand, unless the left one decides. -/
  | right {h g : List Request} {op : BinaryOp} {a b : Expr} {p : Position} {l : Value}
      (hleft : Yields host h a l g) (hopen : op.decidedBy? ≠ some l.toBool) :
      Enters (.binary op a b p) h 1 b g
  | condition {h : List Request} {c y n : Expr} {p : Position} :
      Enters (.conditional c y n p) h 0 c h
  | yes {h g : List Request} {c y n : Expr} {p : Position} {v : Value}
      (hcondition : Yields host h c v g) (hv : v.toBool = true) :
      Enters (.conditional c y n p) h 1 y g
  | no {h g : List Request} {c y n : Expr} {p : Position} {v : Value}
      (hcondition : Yields host h c v g) (hv : v.toBool = false) :
      Enters (.conditional c y n p) h 2 n g
  /-- An argument, after the ones before it. -/
  | argument {h g : List Request} {name : String} {args : List Expr} {p : Position} {i : Nat}
      {a : Expr} {vs : List Value} (hat : args[i]? = some a)
      (hbefore : YieldsAll host h (args.take i) vs g) :
      Enters (.call name args p) h i a g

/-- A node with some history leaves out one of its operands, which is given with its place. -/
inductive Skips : Expr → List Request → Nat → Prop
  /-- A false left operand decides a conjunction. -/
  | conjunction {h g : List Request} {a b : Expr} {p : Position} {l : Value}
      (hleft : Yields host h a l g) (hl : l.toBool = false) : Skips (.binary .and a b p) h 1
  /-- A true left operand decides a disjunction. -/
  | disjunction {h g : List Request} {a b : Expr} {p : Position} {l : Value}
      (hleft : Yields host h a l g) (hl : l.toBool = true) : Skips (.binary .or a b p) h 1
  | yes {h g : List Request} {c y n : Expr} {p : Position} {v : Value}
      (hcondition : Yields host h c v g) (hv : v.toBool = false) :
      Skips (.conditional c y n p) h 1
  | no {h g : List Request} {c y n : Expr} {p : Position} {v : Value}
      (hcondition : Yields host h c v g) (hv : v.toBool = true) :
      Skips (.conditional c y n p) h 2

/-- A node with some history asks the host for something itself, and the history is what was asked
until then: a variable asks for its value, and a call for the value at the values of its arguments,
unless it is one of a standard function. -/
inductive Asks : Expr → List Request → Request → List Request → Prop
  | read {h : List Request} {name : String} {p : Position} :
      Asks (.var name p) h (.read name) h
  | call {h g : List Request} {name : String} {args : List Expr} {p : Position} {vs : List Value}
      (hargs : YieldsAll host h args vs g) (hforeign : Standard.call? name vs = none) :
      Asks (.call name args p) h (.call name vs) g

/-- A node with some history raises an error itself, and the other history is what was asked until
then, the request that the host refused included. -/
inductive Raises : Expr → List Request → EvalError → List Request → Prop
  | unary {h g : List Request} {op : UnaryOp} {a : Expr} {p : Position} {v : Value}
      {error : EvalError} (hoperand : Yields host h a v g) (hop : op.apply v = .error error) :
      Raises (.unary op a p) h error g
  | binary {h g k : List Request} {op : BinaryOp} {a b : Expr} {p : Position} {l r : Value}
      {error : EvalError} (hleft : Yields host h a l g) (hopen : op.decidedBy? ≠ some l.toBool)
      (hright : Yields host g b r k) (hop : op.apply l r = .error error) :
      Raises (.binary op a b p) h error k
  | standard {h g : List Request} {name : String} {args : List Expr} {p : Position}
      {vs : List Value} {error : EvalError} (hargs : YieldsAll host h args vs g)
      (hstandard : Standard.call? name vs = some (.error error)) :
      Raises (.call name args p) h error g
  | refused {e : Expr} {h g : List Request} {r : Request} {error : EvalError}
      (hasks : Asks host e h r g) (hrefused : host.respond g r = .error error) :
      Raises e h error (g ++ [r])

/-- Evaluation of an expression comes to one of its nodes, which is given with the way to it and
with the history at which it is taken up. -/
inductive Reached : Expr → List Request → Path → Expr → List Request → Prop
  | root (e : Expr) (h : List Request) : Reached e h [] e h
  | step {e a s : Expr} {h g k : List Request} {i : Nat} {path : Path}
      (hfirst : Enters host e h i a g) (hrest : Reached a g path s k) :
      Reached e h (i :: path) s k

end Nodes

/-! ### What each node hands over to -/

section Handing

variable {host : Host} {h m : List Request} {i : Nat} {a b c y n s : Expr} {p : Position}

theorem enters_unary_iff {op : UnaryOp} :
    Enters host (unary op a p) h i s m ↔ i = 0 ∧ s = a ∧ m = h := by
  constructor
  · rintro ⟨⟩
    exact ⟨rfl, rfl, rfl⟩
  · rintro ⟨rfl, rfl, rfl⟩
    exact .operand

theorem enters_binary_iff {op : BinaryOp} :
    Enters host (binary op a b p) h i s m ↔
      (i = 0 ∧ s = a ∧ m = h) ∨
        (i = 1 ∧ s = b ∧ ∃ l, Yields host h a l m ∧ op.decidedBy? ≠ some l.toBool) := by
  constructor
  · intro henter
    cases henter with
    | left => exact .inl ⟨rfl, rfl, rfl⟩
    | right hleft hopen => exact .inr ⟨rfl, rfl, _, hleft, hopen⟩
  · rintro (⟨rfl, rfl, rfl⟩ | ⟨rfl, rfl, l, hleft, hopen⟩)
    · exact .left
    · exact .right hleft hopen

theorem enters_conditional_iff :
    Enters host (conditional c y n p) h i s m ↔
      (i = 0 ∧ s = c ∧ m = h) ∨
        (i = 1 ∧ s = y ∧ ∃ v, Yields host h c v m ∧ v.toBool = true) ∨
          (i = 2 ∧ s = n ∧ ∃ v, Yields host h c v m ∧ v.toBool = false) := by
  constructor
  · intro henter
    cases henter with
    | condition => exact .inl ⟨rfl, rfl, rfl⟩
    | yes hcondition hv => exact .inr (.inl ⟨rfl, rfl, _, hcondition, hv⟩)
    | no hcondition hv => exact .inr (.inr ⟨rfl, rfl, _, hcondition, hv⟩)
  · rintro (⟨rfl, rfl, rfl⟩ | ⟨rfl, rfl, v, hcondition, hv⟩ | ⟨rfl, rfl, v, hcondition, hv⟩)
    · exact .condition
    · exact .yes hcondition hv
    · exact .no hcondition hv

theorem enters_call_iff {name : String} {args : List Expr} :
    Enters host (call name args p) h i s m ↔
      ∃ vs, args[i]? = some s ∧ YieldsAll host h (args.take i) vs m := by
  constructor
  · intro henter
    cases henter with
    | argument hat hbefore => exact ⟨_, hat, hbefore⟩
  · rintro ⟨vs, hat, hbefore⟩
    exact .argument hat hbefore

end Handing

/-! ### Failures -/

section Failures

variable {host : Host} {h g k : List Request} {e a : Expr} {i : Nat} {error : EvalError}

/-- An operand that has no value leaves the node without one. -/
theorem Enters.fails (henter : Enters host e h i a g) (hfail : Fails host g a error k) :
    Fails host h e error k := by
  rw [Fails]
  cases henter with
  | operand => rw [evaluate, Dialogue.runAfter_bind_of_error hfail]
  | left => rw [evaluate, Dialogue.runAfter_bind_of_error hfail]
  | condition => rw [evaluate, Dialogue.runAfter_bind_of_error hfail]
  | right hleft hopen =>
    rw [evaluate_binary, Dialogue.runAfter_bind_of_ok hleft, if_neg hopen,
      Dialogue.runAfter_bind_of_error hfail]
  | yes hcondition hv =>
    rw [evaluate, Dialogue.runAfter_bind_of_ok hcondition, if_pos hv]
    exact hfail
  | no hcondition hv =>
    rw [evaluate, Dialogue.runAfter_bind_of_ok hcondition, if_neg (by simp [hv])]
    exact hfail
  | argument hat hbefore =>
    have hargs := evaluateAll_eq_error_iff.mpr ⟨_, _, _, _, hat, hbefore, hfail⟩
    rw [evaluate, Dialogue.runAfter_bind_of_error hargs]

/-- A node that raises an error has no value. -/
theorem Raises.fails (hraise : Raises host e h error g) : Fails host h e error g := by
  rw [Fails]
  cases hraise with
  | unary hoperand hop =>
    rw [evaluate, Dialogue.runAfter_bind_of_ok hoperand, hop, Dialogue.runAfter_ofExcept]
  | binary hleft hopen hright hop =>
    rw [evaluate_binary, Dialogue.runAfter_bind_of_ok hleft, if_neg hopen,
      Dialogue.runAfter_bind_of_ok hright, hop, Dialogue.runAfter_ofExcept]
  | standard hargs hstandard =>
    rw [evaluate, Dialogue.runAfter_bind_of_ok (yieldsAll_iff.mp hargs), hstandard]
    exact Dialogue.runAfter_ofExcept ..
  | refused hasks hrefused =>
    cases hasks with
    | read => rw [evaluate, Dialogue.runAfter_request, hrefused]
    | call hargs hforeign =>
      rw [evaluate, Dialogue.runAfter_bind_of_ok (yieldsAll_iff.mp hargs), hforeign]
      simp [hrefused]

/-- A node without a value raises an error itself, or hands over to an operand without one. -/
theorem Fails.raises_or_enters (hfail : Fails host h e error k) :
    Raises host e h error k ∨ ∃ i a g, Enters host e h i a g ∧ Fails host g a error k := by
  cases e with
  | literal v p => cases hfail
  | var name p =>
    rw [Fails, evaluate, Dialogue.runAfter_request, Transcript.mk.injEq] at hfail
    obtain ⟨hrefused, rfl⟩ := hfail
    exact .inl (.refused .read hrefused)
  | unary op a p =>
    rw [Fails, evaluate] at hfail
    rcases Dialogue.runAfter_bind_eq_error_iff.mp hfail with ha | ⟨v, g, ha, hop⟩
    · exact .inr ⟨0, a, h, .operand, ha⟩
    · rw [Dialogue.runAfter_ofExcept, Transcript.mk.injEq] at hop
      obtain ⟨hop, rfl⟩ := hop
      exact .inl (.unary ha hop)
  | binary op a b p =>
    rw [Fails, evaluate_binary] at hfail
    rcases Dialogue.runAfter_bind_eq_error_iff.mp hfail with ha | ⟨l, g, ha, hrest⟩
    · exact .inr ⟨0, a, h, .left, ha⟩
    split at hrest
    · cases hrest
    next hopen =>
      rcases Dialogue.runAfter_bind_eq_error_iff.mp hrest with hb | ⟨r, m, hb, hop⟩
      · exact .inr ⟨1, b, g, .right ha hopen, hb⟩
      · rw [Dialogue.runAfter_ofExcept, Transcript.mk.injEq] at hop
        obtain ⟨hop, rfl⟩ := hop
        exact .inl (.binary ha hopen hb hop)
  | conditional c y n p =>
    rw [Fails, evaluate] at hfail
    rcases Dialogue.runAfter_bind_eq_error_iff.mp hfail with hc | ⟨v, g, hc, hrest⟩
    · exact .inr ⟨0, c, h, .condition, hc⟩
    split at hrest
    next hv => exact .inr ⟨1, y, g, .yes hc hv, hrest⟩
    next hv => exact .inr ⟨2, n, g, .no hc (by simpa using hv), hrest⟩
  | call name args p =>
    rw [Fails, evaluate] at hfail
    rcases Dialogue.runAfter_bind_eq_error_iff.mp hfail with hargs | ⟨vs, g, hargs, hrest⟩
    · obtain ⟨i, a, vs, g, hat, hbefore, ha⟩ := evaluateAll_eq_error_iff.mp hargs
      exact .inr ⟨i, a, g, .argument hat hbefore, ha⟩
    split at hrest
    next hstandard =>
      rw [Dialogue.runAfter_ofExcept, Transcript.mk.injEq] at hrest
      obtain ⟨rfl, rfl⟩ := hrest
      exact .inl (.standard (yieldsAll_iff.mpr hargs) hstandard)
    next hforeign =>
      rw [Dialogue.runAfter_request, Transcript.mk.injEq] at hrest
      obtain ⟨hrefused, rfl⟩ := hrest
      exact .inl (.refused (.call (yieldsAll_iff.mpr hargs) hforeign) hrefused)

/-- What a node hands over to is the operand at that place. -/
theorem Enters.operand_at (henter : Enters host e h i a g) : e.children[i]? = some a := by
  cases henter with
  | argument hat => exact hat
  | _ => rfl

/-- **Failures.**  An evaluation fails iff it reaches a node that raises an error, and then it fails
with that error, and nothing is asked after it. -/
theorem fails_iff : Fails host h e error k ↔
    ∃ path s g, Reached host e h path s g ∧ Raises host s g error k := by
  constructor
  · intro hfail
    -- The failing node lies in the operand that fails, if the root does not raise the error itself.
    induction e using induction_children generalizing h with
    | children e ih =>
      rcases hfail.raises_or_enters with hraise | ⟨i, a, g, henter, ha⟩
      · exact ⟨[], e, h, .root e h, hraise⟩
      · obtain ⟨path, s, l, hreach, hraise⟩ :=
          ih a (List.mem_of_getElem? henter.operand_at) ha
        exact ⟨i :: path, s, l, .step henter hreach, hraise⟩
  · rintro ⟨path, s, g, hreach, hraise⟩
    induction hreach with
    | root e h => exact hraise.fails
    | step hfirst hrest ih => exact hfirst.fails (ih hraise)

end Failures

/-! ### What is left out -/

section Leaving

variable {host : Host} {h g k : List Request} {e a b s t : Expr} {i : Nat} {path rest : Path}

/-- A node hands over to an operand at most once, with one history. -/
theorem Enters.unique (ha : Enters host e h i a g) (hb : Enters host e h i b k) :
    a = b ∧ g = k := by
  refine ⟨Option.some.inj (ha.operand_at.symm.trans hb.operand_at), ?_⟩
  cases ha with
  | operand => cases hb; rfl
  | left => cases hb; rfl
  | condition => cases hb; rfl
  | right hleft _ =>
    cases hb with
    | right hleft' _ => exact (hleft.unique hleft').2
  | yes hcondition _ =>
    cases hb with
    | yes hcondition' _ => exact (hcondition.unique hcondition').2
  | no hcondition _ =>
    cases hb with
    | no hcondition' _ => exact (hcondition.unique hcondition').2
  | argument _ hbefore =>
    cases hb with
    | argument _ hbefore' => exact (hbefore.unique hbefore').2

/-- A node does not hand over to an operand that it leaves out. -/
theorem Skips.not_enters (hskip : Skips host e h i) : ¬ Enters host e h i a g := by
  intro henter
  cases hskip with
  | conjunction hleft hl =>
    cases henter with
    | right hleft' hopen =>
      obtain ⟨rfl, -⟩ := hleft.unique hleft'
      exact hopen (congrArg some hl.symm)
  | disjunction hleft hl =>
    cases henter with
    | right hleft' hopen =>
      obtain ⟨rfl, -⟩ := hleft.unique hleft'
      exact hopen (congrArg some hl.symm)
  | yes hcondition hv =>
    cases henter with
    | yes hcondition' hv' =>
      obtain ⟨rfl, -⟩ := hcondition.unique hcondition'
      cases hv.symm.trans hv'
  | no hcondition hv =>
    cases henter with
    | no hcondition' hv' =>
      obtain ⟨rfl, -⟩ := hcondition.unique hcondition'
      cases hv.symm.trans hv'

/-- What is reached is the node at the end of the way. -/
theorem Reached.at? (hreach : Reached host e h path s g) : e.at? path = some s := by
  induction hreach with
  | root e h => rfl
  | step hfirst hrest ih => simp [Expr.at?, hfirst.operand_at, ih]

/-- What lies behind a node that was reached is reached from there. -/
theorem Reached.of_append (hs : Reached host e h path s g)
    (ht : Reached host e h (path ++ rest) t k) : Reached host s g rest t k := by
  induction hs with
  | root e h => exact ht
  | step hfirst hrest ih =>
    obtain _ | ⟨hfirst', hrest'⟩ := ht
    obtain ⟨rfl, rfl⟩ := hfirst.unique hfirst'
    exact ih hrest'

/-- Nothing is reached in an operand that is left out. -/
theorem Skips.not_reached (hs : Reached host e h path s g) (hskip : Skips host s g i) :
    ¬ Reached host e h (path ++ i :: rest) t k := by
  intro ht
  obtain _ | ⟨hfirst, -⟩ := hs.of_append ht
  exact hskip.not_enters hfirst

end Leaving

end Reckon
