import Reckon.Proofs.EvaluationOrder
import Reckon.Proofs.OperatorFailures
/-!
# Errors that no evaluation comes to

Two kinds of errors guard against calls that evaluation does not make: a standard function counts
its arguments, and arithmetic refuses an operator that is not its own.  Evaluation has looked at
both before.  An operator is sent to its own family, and a standard function is called with as many
numbers as it has, so that it has a value or reports an argument outside its domain.  Whatever
else goes wrong is the host's own error.

* `EvalError.Own` — the errors that operators and standard functions raise;
* `BinaryOp.Family` — the families of operators, each with a rule of its own;
* `Standard.mem_table_iff` — the rows of the table agree with the functions;
* `Standard.call?_eq_some_iff` — which calls are calls of a standard function;
* `Fails.own_or_refused` — where the error of an evaluation comes from;
* `guard_errors_unreachable` — no evaluation ends in a guard, and a call of a standard function is
  no matter of the host.
-/

open Reckon.Expr

namespace Reckon

/-! ### Errors -/

namespace EvalError

/-- The errors that operators and standard functions raise. -/
inductive Own : EvalError → Prop
  | divisionByZero : Own divisionByZero
  | moduloByZero : Own moduloByZero
  | typeError (details : String) : Own (typeError details)
  | domainError (function details : String) : Own (domainError function details)

/-- The errors that guard against calls with the wrong number of arguments, or with arguments that
an operation does not take. -/
inductive IsGuard : EvalError → Prop
  | argumentCount (name : String) (expected found : Nat) :
      IsGuard (argumentCount name expected found)
  | invalidArgument (details : String) : IsGuard (invalidArgument details)

theorem Own.not_isGuard {e : EvalError} (h : e.Own) : ¬ e.IsGuard := by
  rintro (_ | _) <;> cases h

end EvalError

/-! ### Operators -/

theorem Value.NoNumber.own {v : Value} {e : EvalError} (h : v.NoNumber e) : e.Own := by
  cases h with
  | empty => exact .typeError _
  | malformed => exact .typeError _

theorem UnaryOp.own_of_apply_eq_error {op : UnaryOp} {v : Value} {e : EvalError}
    (h : op.apply v = .error e) : e.Own := by
  cases op with
  | negate =>
    rcases hv : v.toNumber with e' | x
    · simp only [apply, hv] at h
      cases h
      exact (Value.toNumber_eq_error_iff.mp hv).own
    · simp only [apply, hv] at h
      cases h
  | not => cases h

namespace BinaryOp

theorem FailsWith.own {op : BinaryOp} {l r : Value} {e : EvalError} (h : FailsWith l r op e) :
    e.Own := by
  cases h with
  | left _ hl => exact (Value.toNumber_eq_error_iff.mp hl).own
  | right _ _ hr => exact (Value.toNumber_eq_error_iff.mp hr).own
  | zeroDivisor => exact .divisionByZero
  | zeroModulus => exact .moduloByZero
  | unordered => exact .typeError _
  | noMembership => exact .typeError _

/-- The families of binary operators. -/
inductive Family where
  | arithmetic
  | comparison
  | equality
  | membership
  | logic
deriving DecidableEq, Repr

namespace Family

/-- The operators that a family has a rule for. -/
def operators : Family → List BinaryOp
  | arithmetic => add :: numeric
  | comparison => ordering
  | equality => [equal, notEqual]
  | membership => [member]
  | logic => [and, or, xor]

/-- What a family makes of an operator, whether it is its own or not. -/
def apply (family : Family) (op : BinaryOp) (l r : Value) : Except EvalError Value :=
  match family with
  | arithmetic => op.arithmetic l r
  | comparison => op.comparison l r
  | equality => .ok (op.equality l r)
  | membership => BinaryOp.membership l r
  | logic => .ok (op.logic l r)

end Family

/-- The family of an operator. -/
def family : BinaryOp → Family
  | add | subtract | multiply | divide | modulo => .arithmetic
  | less | greater | lessEqual | greaterEqual => .comparison
  | equal | notEqual => .equality
  | member => .membership
  | and | or | xor => .logic

theorem mem_operators_iff {op : BinaryOp} {family : Family} :
    op ∈ family.operators ↔ family = op.family := by
  cases op <;> cases family <;> decide

/-- **An operator reaches its own family,** and no other has a rule for it. -/
theorem reaches_family (op : BinaryOp) :
    ∃! family : Family, op ∈ family.operators ∧ ∀ l r, op.apply l r = family.apply op l r := by
  refine ⟨op.family, ⟨mem_operators_iff.mpr rfl, fun l r => ?_⟩, fun family h => ?_⟩
  · cases op <;> rfl
  · exact mem_operators_iff.mp h.1

/-- The guard of arithmetic is for the operators of the other families, and for all of these. -/
theorem arithmetic_guards_iff {op : BinaryOp} :
    (∃ l r e, op.arithmetic l r = .error e ∧ e.IsGuard) ↔ op ∉ Family.arithmetic.operators := by
  constructor
  · rintro ⟨l, r, e, herror, hguard⟩ hop
    have hown : op.apply l r = .error e := by
      obtain ⟨family, ⟨hfamily, happly⟩, -⟩ := reaches_family op
      rw [happly, mem_operators_iff.mp hfamily, ← mem_operators_iff.mp hop]
      exact herror
    exact (apply_eq_error_iff.mp hown).own.not_isGuard hguard
  · intro hop
    refine ⟨.number 0, .number 0, .notArithmetic op, ?_, .invalidArgument _⟩
    cases op <;> first | rfl | exact absurd (by decide) hop

end BinaryOp

/-! ### Standard functions -/

namespace Standard

variable {f : Standard} {name : String} {args : List Value} {xs : List Number}

theorem numberOnly?_eq_some_iff {v : Value} {x : Number} :
    numberOnly? v = some x ↔ v = .number x := by
  cases v <;> simp [numberOnly?]

theorem mapM_numberOnly?_eq_some_iff :
    args.mapM numberOnly? = some xs ↔ args = xs.map .number := by
  induction args generalizing xs with
  | nil => cases xs <;> simp
  | cons v vs ih =>
    simp only [List.mapM_cons, bind, Option.bind_eq_some_iff, numberOnly?_eq_some_iff, ih]
    constructor
    · rintro ⟨x, rfl, ys, rfl, hxs⟩
      cases hxs
      rfl
    · cases xs with
      | nil => simp
      | cons x xs =>
        rintro ⟨rfl, rfl⟩
        exact ⟨x, rfl, xs, rfl, rfl⟩

/-- **The two counts agree.**  The rows of the table are those that call a function by its own name,
and with as many arguments as it takes. -/
theorem mem_table_iff {row : Row} :
    row ∈ table ↔ row.name = row.function.name ∧ row.arity = row.function.arity := by
  constructor
  · have hrows : ∀ row ∈ table, row.name = row.function.name ∧ row.arity = row.function.arity := by
      decide
    exact hrows row
  · intro h
    obtain ⟨name, arity, function⟩ := row
    obtain ⟨rfl, rfl⟩ : name = function.name ∧ arity = function.arity := h
    cases function with
    | unary f => cases f <;> decide
    | binary f => cases f <;> decide

/-- A row is found by its name and its number of arguments. -/
theorem find?_table {row : Row} (h : row ∈ table) :
    table.find? (fun r => r.name = row.name ∧ r.arity = row.arity) = some row := by
  have hrows : ∀ row ∈ table,
      table.find? (fun r => r.name = row.name ∧ r.arity = row.arity) = some row := by decide
  exact hrows row h

/-- **Calls of standard functions** are those with the name of a row, and as many numbers as it asks
for. -/
theorem call?_eq_some_iff {result : Except EvalError Value} :
    call? name args = some result ↔ ∃ row ∈ table, ∃ xs : List Number, row.name = name ∧
      args = xs.map .number ∧ xs.length = row.arity ∧
        result = (row.function.apply xs).map .number := by
  constructor
  · intro h
    simp only [call?, bind, Option.bind_eq_some_iff] at h
    obtain ⟨row, hfind, xs, hxs, hresult⟩ := h
    obtain ⟨hname, harity⟩ : row.name = name ∧ row.arity = args.length := by
      simpa using List.find?_some hfind
    have hargs := mapM_numberOnly?_eq_some_iff.mp hxs
    refine ⟨row, List.mem_of_find?_eq_some hfind, xs, hname, hargs, ?_,
      (Option.some.inj hresult).symm⟩
    rw [harity, hargs, List.length_map]
  · intro h
    obtain ⟨row, hrow, xs, rfl, rfl, hlength, rfl⟩ := h
    simp only [call?, List.length_map, hlength, find?_table hrow]
    rw [mapM_numberOnly?_eq_some_iff.mpr rfl]
    rfl

/-- A name is standard iff some call with it is one of a standard function. -/
theorem isStandard_iff : isStandard name ↔ ∃ args result, call? name args = some result := by
  simp only [isStandard, names, List.contains_iff_mem, List.mem_map, call?_eq_some_iff]
  constructor
  · intro h
    obtain ⟨row, hrow, hname⟩ := h
    exact ⟨_, _, row, hrow, List.replicate row.arity 0, hname, rfl, List.length_replicate, rfl⟩
  · intro h
    obtain ⟨_, _, row, hrow, _, hname, -⟩ := h
    exact ⟨row, hrow, hname⟩

/-- What a function with as many numbers as it has arguments comes to: a number, or a report that
its arguments are outside its domain. -/
def Settles (f : Standard) (xs : List Number) : Prop :=
  (∃ x, f.apply xs = .ok x) ∨ ∃ details, f.apply xs = .error (.domainError f.name details)

theorem settles_unary (f : UnaryFunction) (x : Number) : (unary f).Settles [x] := by
  cases f with
  | sqrt =>
    by_cases hx : x < 0
    · exact .inr ⟨_, if_pos hx⟩
    · exact .inl ⟨_, if_neg hx⟩
  | log =>
    by_cases hx : x ≤ 0
    · exact .inr ⟨_, if_pos hx⟩
    · exact .inl ⟨_, if_neg hx⟩
  | sin | cos | tan | abs | exp | floor | ceil | round => exact .inl ⟨_, rfl⟩

theorem settles_binary (f : BinaryFunction) (x y : Number) : (binary f).Settles [x, y] := by
  cases f with
  | pow =>
    by_cases hpower : (Float.pow x y).isNaN ∧ ¬ x.isNaN ∧ ¬ y.isNaN
    · exact .inr ⟨_, if_pos hpower⟩
    · exact .inl ⟨_, if_neg hpower⟩
  | min | max => exact .inl ⟨_, rfl⟩

theorem settles_of_arity (h : xs.length = f.arity) : f.Settles xs := by
  cases f with
  | unary f =>
    obtain ⟨x, rfl⟩ := List.length_eq_one_iff.mp h
    exact settles_unary f x
  | binary f =>
    obtain ⟨x, y, rfl⟩ := List.length_eq_two.mp h
    exact settles_binary f x y

/-- A function that is reached through the table has as many numbers as it takes. -/
theorem settles_of_mem_table {row : Row} (hrow : row ∈ table) (h : xs.length = row.arity) :
    row.function.Settles xs :=
  settles_of_arity (h.trans (mem_table_iff.mp hrow).2)

/-- **A function guards against any other number of arguments** than the one it takes. -/
theorem counts_iff : (∃ e, f.apply xs = .error e ∧ e.IsGuard) ↔ xs.length ≠ f.arity := by
  constructor
  · rintro ⟨e, herror, hguard⟩ hlength
    obtain ⟨x, hx⟩ | ⟨details, hdomain⟩ := settles_of_arity hlength
    · cases hx.symm.trans herror
    · cases hdomain.symm.trans herror
      cases hguard
  · intro hlength
    refine ⟨.argumentCount f.name f.arity xs.length, ?_, .argumentCount _ _ _⟩
    rw [apply, checkArity, dif_neg hlength]
    rfl

end Standard

/-! ### Evaluations -/

section Evaluations

variable {host : Host} {h g k : List Request} {e : Expr} {error : EvalError}

/-- The error of a node is one of those that operators and standard functions raise, or the host has
refused a request with it. -/
theorem Raises.own_or_refused (hraise : Raises host e h error g) :
    error.Own ∨ ∃ before r, host.respond before r = .error error := by
  cases hraise with
  | unary _ hop => exact .inl (UnaryOp.own_of_apply_eq_error hop)
  | binary _ _ _ hop => exact .inl (BinaryOp.apply_eq_error_iff.mp hop).own
  | standard _ hstandard =>
    obtain ⟨row, hrow, xs, -, -, hlength, hresult⟩ := Standard.call?_eq_some_iff.mp hstandard
    obtain ⟨x, hx⟩ | ⟨details, hdomain⟩ := Standard.settles_of_mem_table hrow hlength
    · rw [hx] at hresult
      cases hresult
    · rw [hdomain] at hresult
      cases hresult
      exact .inl (.domainError _ _)
  | refused _ hrefused => exact .inr ⟨_, _, hrefused⟩

/-- **Where the error of an evaluation comes from.** -/
theorem Fails.own_or_refused (hfail : Fails host h e error k) :
    error.Own ∨ ∃ before r, host.respond before r = .error error := by
  obtain ⟨path, s, g, -, hraise⟩ := fails_iff.mp hfail
  exact hraise.own_or_refused

/-- A call of a standard function is settled by the function, and nothing is asked after its
arguments. -/
theorem evaluate_standard {row : Standard.Row} (hrow : row ∈ Standard.table) {xs : List Number}
    {args : List Expr} (p : Position) (hargs : YieldsAll host h args (xs.map .number) g)
    (hlength : xs.length = row.arity) :
    (call row.name args p).evaluate.runAfter host h =
      ⟨(row.function.apply xs).map .number, g⟩ := by
  have hcall := Standard.call?_eq_some_iff.mpr ⟨row, hrow, xs, rfl, rfl, hlength, rfl⟩
  rw [evaluate, Dialogue.runAfter_bind_of_ok (yieldsAll_iff.mp hargs), hcall]
  exact Dialogue.runAfter_ofExcept ..

/-- A call of a standard function has a number for its value, or ends in the function's own report
on its domain.  The host is not asked about it, whatever it knows under that name. -/
theorem standard_yields_or_fails {row : Standard.Row} (hrow : row ∈ Standard.table)
    {xs : List Number} {args : List Expr} (p : Position)
    (hargs : YieldsAll host h args (xs.map .number) g) (hlength : xs.length = row.arity) :
    (∃ x, row.function.apply xs = .ok x ∧ Yields host h (call row.name args p) (.number x) g) ∨
      ∃ details, row.function.apply xs = .error (.domainError row.name details) ∧
        Fails host h (call row.name args p) (.domainError row.name details) g := by
  have hrun := evaluate_standard hrow p hargs hlength
  obtain ⟨x, hx⟩ | ⟨details, hdomain⟩ := Standard.settles_of_mem_table hrow hlength
  · rw [hx] at hrun
    exact .inl ⟨x, hx, hrun⟩
  · rw [← (Standard.mem_table_iff.mp hrow).1] at hdomain
    rw [hdomain] at hrun
    exact .inr ⟨details, hdomain, hrun⟩

end Evaluations

/-- **No evaluation ends in a guard.**  At a host that gives no guard for an answer, no expression
does, after whatever requests.  For every operator reaches the one family that has a rule for it,
where arithmetic guards against the operators of the others alone.  And the rows of the table agree
with the functions, so that the function that a call reaches is given numbers only, and as many as
it takes, where it guards against any other number of them alone.  Such a call has a number for its
value or ends in that function's report on its domain, and the host is asked nothing but what the
arguments ask. -/
theorem guard_errors_unreachable (host : Host) :
    ((∀ earlier r error, host.respond earlier r = .error error → ¬ error.IsGuard) →
      ∀ e h error g, Fails host h e error g → ¬ error.IsGuard) ∧
    (∀ op, ∃! family : BinaryOp.Family, op ∈ family.operators ∧
      ∀ l r, op.apply l r = family.apply op l r) ∧
    (∀ op, (∃ l r e, op.arithmetic l r = .error e ∧ e.IsGuard) ↔
      op ∉ BinaryOp.Family.arithmetic.operators) ∧
    (∀ row, row ∈ Standard.table ↔
      row.name = row.function.name ∧ row.arity = row.function.arity) ∧
    (∀ name args result, Standard.call? name args = some result →
      ∃ row ∈ Standard.table, ∃ xs : List Number, row.name = name ∧ args = xs.map .number ∧
        xs.length = row.function.arity ∧ result = (row.function.apply xs).map .number) ∧
    (∀ (f : Standard) xs, (∃ e, f.apply xs = .error e ∧ e.IsGuard) ↔ xs.length ≠ f.arity) ∧
    ∀ row ∈ Standard.table, ∀ xs args p h g, YieldsAll host h args (xs.map .number) g →
      xs.length = row.arity →
        (∃ x, row.function.apply xs = .ok x ∧
          Yields host h (call row.name args p) (.number x) g) ∨
        ∃ details, row.function.apply xs = .error (.domainError row.name details) ∧
          Fails host h (call row.name args p) (.domainError row.name details) g := by
  refine ⟨fun hhost e h error g hfail => ?_, BinaryOp.reaches_family,
    fun op => BinaryOp.arithmetic_guards_iff, fun row => Standard.mem_table_iff,
    fun name args result hcall => ?_, fun f xs => Standard.counts_iff,
    fun row hrow xs args p h g hargs hlength => standard_yields_or_fails hrow p hargs hlength⟩
  · obtain hown | ⟨before, r, hrefused⟩ := hfail.own_or_refused
    · exact hown.not_isGuard
    · exact hhost before r error hrefused
  · obtain ⟨row, hrow, xs, hname, hargs, hlength, hresult⟩ := Standard.call?_eq_some_iff.mp hcall
    exact ⟨row, hrow, xs, hname, hargs, hlength.trans (Standard.mem_table_iff.mp hrow).2, hresult⟩

/-- A host that would answer any call is not asked for the logarithm of what it says `x` is, and the
error is not one of a guard. -/
theorem logarithm_is_not_the_hosts :
    let host : Host := ⟨fun _ _ => .ok (.number 0)⟩
    let args := [var "x" (.byte 4)]
    let e := call "log" args (.byte 0)
    let asked := [Request.read "x"]
    (∀ earlier r error, host.respond earlier r = .error error → ¬ error.IsGuard) ∧
      YieldsAll host [] args [.number 0] asked ∧
      ∃ details, Fails host [] e (.domainError "log" details) asked ∧
        ¬ (EvalError.domainError "log" details).IsGuard := by
  intro host args e asked
  have hhost : ∀ earlier r error, host.respond earlier r = .error error → ¬ error.IsGuard := by
    intro earlier r error herror
    cases herror
  have hargs : YieldsAll host [] args [.number 0] asked := .cons rfl (.nil _)
  obtain ⟨hguards, -, -, -, -, -, hstandard⟩ := guard_errors_unreachable host
  obtain ⟨x, hx, -⟩ | ⟨details, -, hfail⟩ :=
    hstandard ⟨"log", 1, .unary .log⟩ (by decide) [0] args (.byte 0) [] asked hargs rfl
  · have hzero : (0 : Number) ≤ 0 := by decide
    have hdomain : UnaryFunction.log.apply 0 = .error (.logOfNonPositive (Number.plain 0)) := by
      rw [UnaryFunction.apply, if_pos hzero]
    cases hx.symm.trans hdomain
  · exact ⟨hhost, hargs, details, hfail, hguards hhost e [] _ asked hfail⟩

end Reckon
