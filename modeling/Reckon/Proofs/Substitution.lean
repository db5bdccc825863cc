import Reckon.Environment
import Reckon.Evaluation
import Reckon.Proofs.TreeShape
/-!
# A variable and its value

A variable that has a value is as good as a literal of that value.  To put the literal in its place
is to know the answer to one request beforehand: the dialogue of the new tree is the dialogue of the
old one in which that request is not made any more.  And a host that gives this answer whenever it
is asked does not miss the request, so that only the reads of the variable are gone from a run.

* `Expr.substitute` — a tree with a literal in place of a variable;
* `Dialogue.answered` — a dialogue in which the answer to a request is known;
* `evaluate_substitute` — the first is evaluated as the second;
* `Dialogue.runAfter_answered` — a run of a dialogue with a known answer, beside one without;
* `variable_as_literal` — both for evaluations, and for environments in particular.
-/

namespace Reckon

/-! ### Literals for variables -/

namespace Expr

mutual

/-- The tree with a literal in place of every variable of the given name.  A call of that name stays
what it is. -/
def substitute (x : String) (v : Value) : Expr → Expr
  | literal w p => literal w p
  | var name p => if name = x then literal v p else var name p
  | unary op a p => unary op (a.substitute x v) p
  | binary op a b p => binary op (a.substitute x v) (b.substitute x v) p
  | conditional c y n p =>
    conditional (c.substitute x v) (y.substitute x v) (n.substitute x v) p
  | call name args p => call name (substituteAll x v args) p

/-- Several trees with a literal in place of every variable of the given name. -/
def substituteAll (x : String) (v : Value) : List Expr → List Expr
  | [] => []
  | e :: es => e.substitute x v :: substituteAll x v es

end

end Expr

/-! ### Known answers -/

namespace Dialogue

variable {α β : Type} (r : Request) (v : Value)

/-- The dialogue in which the answer to one request is known, so that it is not made. -/
def answered : Dialogue α → Dialogue α
  | finish a => finish a
  | fail e => fail e
  | ask s next => if s = r then (next v).answered else ask s fun w => (next w).answered

@[simp]
theorem answered_pure (a : α) : (pure a : Dialogue α).answered r v = pure a := rfl

@[simp]
theorem answered_ofExcept (result : Except EvalError α) :
    (ofExcept result).answered r v = ofExcept result := by
  cases result <;> rfl

@[simp]
theorem answered_request (s : Request) :
    (request s).answered r v = if s = r then pure v else request s := rfl

/-- An answer that is known for a dialogue is known for its parts. -/
@[simp]
theorem answered_bind (d : Dialogue α) (f : α → Dialogue β) :
    (d >>= f).answered r v = d.answered r v >>= fun a => (f a).answered r v := by
  induction d with
  | finish a => rfl
  | fail e => rfl
  | ask s next ih =>
    simp only [ask_bind, answered]
    split
    · exact ih v
    · exact congrArg (ask s) (funext ih)

end Dialogue

open Dialogue

theorem evaluateAll_substituteAll {x : String} {v : Value} {es : List Expr}
    (h : ∀ a ∈ es, (a.substitute x v).evaluate = a.evaluate.answered (.read x) v) :
    Expr.evaluateAll (Expr.substituteAll x v es) =
      (Expr.evaluateAll es).answered (.read x) v := by
  induction es with
  | nil => rfl
  | cons e es ih =>
    have hhead := h e List.mem_cons_self
    have htail := ih fun a ha => h a (List.mem_cons_of_mem e ha)
    simp only [Expr.substituteAll, Expr.evaluateAll, hhead, htail, answered_bind, answered_pure]

/-- **A literal for a variable.**  The tree with the literal is evaluated as the one with the
variable is when the value of the variable is known. -/
theorem evaluate_substitute (e : Expr) (x : String) (v : Value) :
    (e.substitute x v).evaluate = e.evaluate.answered (.read x) v := by
  induction e using Expr.induction with
  | literal w p => rfl
  | var name p =>
    by_cases hname : name = x <;> simp [Expr.substitute, Expr.evaluate, hname]
  | unary op a p ha => simp [Expr.substitute, Expr.evaluate, ha]
  | binary op a b p ha hb =>
    simp only [Expr.substitute, Expr.evaluate, ha, hb, answered_bind]
    refine bind_congr fun l => ?_
    -- the right operand is evaluated unless the left one decides
    cases op.decidedBy? with
    | none => simp
    | some decided =>
      by_cases hdecided : l.toBool = decided
      · simp only [if_pos hdecided, answered_pure]
      · simp only [if_neg hdecided, answered_bind, answered_pure]
  | conditional c y n p hc hy hn =>
    simp only [Expr.substitute, Expr.evaluate, hc, hy, hn, answered_bind]
    refine bind_congr fun l => ?_
    cases l.toBool <;> simp
  | call name args p hargs =>
    simp only [Expr.substitute, Expr.evaluate, evaluateAll_substituteAll hargs, answered_bind]
    refine bind_congr fun values => ?_
    cases Standard.call? name values <;> simp

/-! ### Runs -/

/-- Whether the request is the call of a function. -/
def Request.isCall : Request → Bool
  | read _ => false
  | call _ _ => true

/-- What came out, and what was asked apart from one request. -/
def Transcript.without {ε α : Type} (t : Transcript ε α) (r : Request) : Transcript ε α :=
  { t with requests := t.requests.filter (· ≠ r) }

/-- The calls are still there when a read is left out. -/
theorem Transcript.calls_without {ε α : Type} (t : Transcript ε α) (x : String) :
    (t.without (.read x)).requests.filter Request.isCall = t.requests.filter Request.isCall := by
  simp only [without, List.filter_filter]
  refine List.filter_congr fun r _ => ?_
  cases r <;> simp [Request.isCall]

/-- The host gives one request the answer `v`, however often it is made, and to every other request
another host gives the same answer as this one, if the one request is left out of its history. -/
structure Host.AgreesExcept (host other : Host) (r : Request) (v : Value) : Prop where
  answer : ∀ earlier, host.respond earlier r = .ok v
  agrees : ∀ earlier s, s ≠ r →
    other.respond (earlier.filter (· ≠ r)) s = host.respond earlier s

/-- **A known answer is not missed.**  A dialogue in which the answer to a request is known goes as
it goes without, except that the request is not made. -/
theorem Dialogue.runAfter_answered {α : Type} {host other : Host} {r : Request} {v : Value}
    (h : host.AgreesExcept other r v) (d : Dialogue α) (earlier : List Request) :
    (d.answered r v).runAfter other (earlier.filter (· ≠ r)) =
      (d.runAfter host earlier).without r := by
  induction d generalizing earlier with
  | finish a => rfl
  | fail e => rfl
  | ask s next ih =>
    by_cases hs : s = r
    · subst hs
      -- the request that is not made leaves nothing in the history
      have hhistory : (earlier ++ [s]).filter (· ≠ s) = earlier.filter (· ≠ s) := by simp
      simp only [answered, runAfter, h.answer, if_true]
      rw [← hhistory]
      exact ih v (earlier ++ [s])
    · have hhistory : (earlier ++ [s]).filter (· ≠ r) = earlier.filter (· ≠ r) ++ [s] := by
        simp [hs]
      simp only [answered, runAfter, if_neg hs, h.agrees earlier s hs, ← hhistory]
      cases host.respond earlier s with
      | ok w => exact ih w (earlier ++ [s])
      | error e => rfl

/-! ### Environments -/

namespace Environment

variable {env : Environment} {x : String} {v : Value}

theorem agreesExcept_self (h : env.get? x = some v) :
    env.host.AgreesExcept env.host (.read x) v where
  answer _ := by simp [host, Host.ofFunctions, read, h]
  agrees _ _ _ := rfl

theorem agreesExcept_remove (h : env.get? x = some v) :
    env.host.AgreesExcept (env.remove x).2.host (.read x) v where
  answer := (agreesExcept_self h).answer
  agrees earlier s hs := by
    cases s with
    | read name =>
      have hname : x ≠ name := fun heq => hs (congrArg Request.read heq.symm)
      simp [host, Host.ofFunctions, read, hname]
    | call name args => rfl

end Environment

/-- **A variable behaves as a literal of its value.**  With the literal in the place of the variable
an evaluation has the same value or the same error, and it asks the same in the same order, except
that it does not read the variable.  This holds for every host that always gives the variable this
value, even if it remembers what else it was asked.  So it holds in an environment where the
variable has the value, and the new tree does not need the variable there any more. -/
theorem variable_as_literal (e : Expr) (x : String) (v : Value) :
    (∀ host other : Host, host.AgreesExcept other (.read x) v →
      (e.substitute x v).evaluate.run other = (e.evaluate.run host).without (.read x)) ∧
    ∀ env other : Environment, env.get? x = some v → other = env ∨ other = (env.remove x).2 →
      (e.substitute x v).evaluate.run other.host =
          (e.evaluate.run env.host).without (.read x) ∧
        ((e.substitute x v).evaluate.run other.host).requests.filter Request.isCall =
          (e.evaluate.run env.host).requests.filter Request.isCall := by
  have hrun {host other : Host} (h : host.AgreesExcept other (.read x) v) :
      (e.substitute x v).evaluate.run other = (e.evaluate.run host).without (.read x) := by
    rw [evaluate_substitute]
    exact Dialogue.runAfter_answered h e.evaluate []
  refine ⟨fun host other h => hrun h, fun env other hvalue hother => ?_⟩
  have hagrees : env.host.AgreesExcept other.host (.read x) v := by
    rcases hother with rfl | rfl
    · exact Environment.agreesExcept_self hvalue
    · exact Environment.agreesExcept_remove hvalue
  rw [hrun hagrees]
  exact ⟨rfl, Transcript.calls_without _ x⟩

/-- In `x ? x(x, y) : 1 / z` the variable `x` is read twice, once for the condition and once for an
argument, and the function `x` is called whether the variable is there or not.  A host that tells a
first call from a later one does not miss the reads either. -/
theorem variable_beside_function_of_its_name :
    let e := Expr.conditional (.var "x" (.byte 0))
      (.call "x" [.var "x" (.byte 6), .var "y" (.byte 9)] (.byte 4))
      (.binary .divide (.literal (.number 1) (.byte 14)) (.var "z" (.byte 18)) (.byte 16)) (.byte 2)
    let v := Value.string "on"
    let env := ((Environment.empty.set "x" v).set "y" (.boolean true)).register "x" fun args =>
      .ok (args.getLastD v)
    let remembering : Host := ⟨fun earlier r =>
      .ok (if r.isCall then .boolean (earlier.any Request.isCall) else v)⟩
    (env.get? "x" = some v ∧
      e.evaluate.run env.host = ⟨.ok (.boolean true),
        [.read "x", .read "x", .read "y", .call "x" [v, .boolean true]]⟩ ∧
      (e.substitute "x" v).evaluate.run (env.remove "x").2.host =
        ⟨.ok (.boolean true), [.read "y", .call "x" [v, .boolean true]]⟩) ∧
    remembering.AgreesExcept remembering (.read "x") v ∧
      (e.substitute "x" v).evaluate.run remembering =
        (e.evaluate.run remembering).without (.read "x") := by
  intro e v env remembering
  obtain ⟨hhost, henvironment⟩ := variable_as_literal e "x" v
  constructor
  · have hx : env.get? "x" = some v := by simp [env]
    have hy : env.get? "y" = some (.boolean true) := by simp [env]
    have hfunction : env.function? "x" = some fun args => .ok (args.getLastD v) := by simp [env]
    have hforeign : Standard.call? "x" [v, .boolean true] = none := by decide
    have htrue : v.toBool = true := by decide
    have hrun : e.evaluate.run env.host = ⟨.ok (.boolean true),
        [.read "x", .read "x", .read "y", .call "x" [v, .boolean true]]⟩ := by
      simp [e, Expr.evaluate, Expr.evaluateAll, Dialogue.run, Dialogue.runAfter_bind,
        Environment.host, Host.ofFunctions, Environment.read, Environment.call, hx, hy, hfunction,
        hforeign, htrue]
    obtain ⟨hremoved, -⟩ := henvironment env (env.remove "x").2 hx (.inr rfl)
    refine ⟨hx, hrun, ?_⟩
    rw [hremoved, hrun]
    rfl
  · have hagrees : remembering.AgreesExcept remembering (.read "x") v := by
      refine ⟨fun earlier => rfl, fun earlier s hs => ?_⟩
      have hcalls : (earlier.filter (· ≠ .read "x")).any Request.isCall =
          earlier.any Request.isCall := by
        rw [List.any_filter]
        refine congrArg earlier.any (funext fun r => ?_)
        cases r <;> simp [Request.isCall]
      simp only [remembering, hcalls]
    exact ⟨hagrees, hhost remembering remembering hagrees⟩

end Reckon
