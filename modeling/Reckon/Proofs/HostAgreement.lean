import Reckon.Environment
import Reckon.Evaluation
/-!
# What an evaluation depends on

An evaluation learns of its host only through the answers that it gets.  So a host that gives the
same answers to what another one is asked cannot be told from it: it is asked the same, and the
outcome is the same.  This goes for an evaluation without a host as well, where every request is
refused.  For an environment it says which changes of it are harmless.

* `Host.AgreesWith` — a host answers some requests as another one does;
* `Dialogue.runAfter_eq_of_agrees` — agreement on what is asked carries a dialogue over;
* `Dialogue.eq_finish_of_refused` — what has a value although every request is refused;
* `Edit` — the changes of an environment, and the requests that one of them misses;
* `evaluation_depends_on_answers` — all of this for evaluations.
-/

namespace Reckon

/-- Of the given requests, the host answers those after the earlier ones as the other host does,
each with everything before it as its history. -/
def Host.AgreesWith (host other : Host) (earlier requests : List Request) : Prop :=
  ∀ before r after, requests = before ++ r :: after → earlier <+: before →
    host.respond before r = other.respond before r

/-! ### Dialogues -/

namespace Dialogue

variable {α : Type} {host other : Host} {earlier : List Request}

/-- What a dialogue asks first comes right after the earlier requests. -/
theorem requests_ask (host : Host) (earlier : List Request) (r : Request)
    (next : Value → Dialogue α) :
    ∃ later, ((ask r next).runAfter host earlier).requests = earlier ++ r :: later := by
  have hfirst : earlier ++ [r] <+: ((ask r next).runAfter host earlier).requests := by
    simp only [runAfter]
    split
    · exact prefix_requests ..
    · exact List.prefix_rfl
  obtain ⟨later, hlater⟩ := hfirst
  exact ⟨later, by rw [← hlater, List.append_assoc]; rfl⟩

/-- With an answer to its first request a dialogue goes on. -/
theorem runAfter_ask_of_ok {r : Request} {v : Value} (hanswer : host.respond earlier r = .ok v)
    (next : Value → Dialogue α) :
    (ask r next).runAfter host earlier = (next v).runAfter host (earlier ++ [r]) := by
  simp only [runAfter, hanswer]

theorem runAfter_ask_of_error {r : Request} {e : EvalError}
    (hanswer : host.respond earlier r = .error e) (next : Value → Dialogue α) :
    (ask r next).runAfter host earlier = ⟨.error e, earlier ++ [r]⟩ := by
  simp only [runAfter, hanswer]

/-- **Agreement carries a dialogue over.**  A host that answers what another one is asked as that
one does is asked the same, with the same outcome. -/
theorem runAfter_eq_of_agrees {d : Dialogue α}
    (hagrees : host.AgreesWith other earlier (d.runAfter other earlier).requests) :
    d.runAfter host earlier = d.runAfter other earlier := by
  induction d generalizing earlier with
  | finish a => rfl
  | fail e => rfl
  | ask r next ih =>
    obtain ⟨later, hlater⟩ := requests_ask other earlier r next
    have hfirst : host.respond earlier r = other.respond earlier r :=
      hagrees earlier r later hlater List.prefix_rfl
    -- Both hosts give the same answer, so that both go on with the same dialogue.
    cases hother : other.respond earlier r with
    | error e =>
      rw [runAfter_ask_of_error (hfirst.trans hother), runAfter_ask_of_error hother]
    | ok v =>
      rw [runAfter_ask_of_ok hother] at hagrees
      rw [runAfter_ask_of_ok (hfirst.trans hother), runAfter_ask_of_ok hother]
      apply ih
      intro before q after hsplit hbefore
      exact hagrees before q after hsplit ((List.prefix_append ..).trans hbefore)

/-- A host that gives all the answers of another one, and perhaps some where that one has none,
leads a dialogue to the same value. -/
theorem runAfter_eq_of_answers_more {d : Dialogue α} {a : α} {requests : List Request}
    (hmore : ∀ before r v, other.respond before r = .ok v → host.respond before r = .ok v)
    (hrun : d.runAfter other earlier = ⟨.ok a, requests⟩) :
    d.runAfter host earlier = ⟨.ok a, requests⟩ := by
  induction d generalizing earlier with
  | finish b => exact hrun
  | fail e => cases hrun
  | ask r next ih =>
    cases hother : other.respond earlier r with
    | error e =>
      rw [runAfter_ask_of_error hother] at hrun
      cases hrun
    | ok v =>
      rw [runAfter_ask_of_ok hother] at hrun
      rw [runAfter_ask_of_ok (hmore _ _ _ hother)]
      exact ih v hrun

/-- Where every request is refused, only what makes none has a value. -/
theorem eq_finish_of_refused {d : Dialogue α} {a : α}
    (hrefused : ∀ before r v, host.respond before r ≠ .ok v)
    (hvalue : (d.runAfter host earlier).result = .ok a) : d = .finish a := by
  cases d with
  | finish b =>
    cases hvalue
    rfl
  | fail e => cases hvalue
  | ask r next =>
    cases hanswer : host.respond earlier r with
    | error e =>
      rw [runAfter_ask_of_error hanswer] at hvalue
      cases hvalue
    | ok v => exact absurd hanswer (hrefused earlier r v)

end Dialogue

/-- Without a host every request is refused. -/
theorem Host.respond_absent_ne_ok (before : List Request) (r : Request) (v : Value) :
    Host.absent.respond before r ≠ .ok v := by
  intro h
  cases r <;> cases h

/-! ### Changes of an environment -/

/-- A change of an environment. -/
inductive Edit where
  | set (name : String) (value : Value)
  | remove (name : String)
  | register (name : String) (function : HostFunction)

namespace Environment

/-- The environment after a change. -/
def edit (env : Environment) : Edit → Environment
  | .set name value => env.set name value
  | .remove name => (env.remove name).2
  | .register name function => env.register name function

/-- The environment after several changes, the first of them first. -/
def edited (env : Environment) (edits : List Edit) : Environment := edits.foldl edit env

end Environment

namespace Edit

/-- A change misses a request: a variable that is set or removed is not the one that is read, and a
function that is registered not the one that is called. -/
def Misses : Edit → Request → Prop
  | set name _, .read other | remove name, .read other => name ≠ other
  | register name _, .call other _ => name ≠ other
  | _, _ => True

/-- A change adds to an environment: it sets a variable or registers a function where the
environment has none of that name. -/
def AddsTo (env : Environment) : Edit → Prop
  | set name _ => env.get? name = none
  | register name _ => env.function? name = none
  | remove _ => False

variable {env : Environment} {edit : Edit} {edits : List Edit} {before : List Request} {r : Request}

/-- A change is not seen in what it misses. -/
theorem respond_edit (h : edit.Misses r) :
    (env.edit edit).host.respond before r = env.host.respond before r := by
  cases edit with
  | set name value =>
    cases r with
    | read other =>
      have hne : name ≠ other := h
      simp [Environment.edit, Environment.host, Host.ofFunctions, Environment.read, hne]
    | call other args => rfl
  | remove name =>
    cases r with
    | read other =>
      have hne : name ≠ other := h
      simp [Environment.edit, Environment.host, Host.ofFunctions, Environment.read, hne]
    | call other args => rfl
  | register name function =>
    cases r with
    | read other => rfl
    | call other args =>
      have hne : name ≠ other := h
      simp [Environment.edit, Environment.host, Host.ofFunctions, Environment.call, hne]

/-- Changes are not seen in what all of them miss. -/
theorem respond_edited (h : ∀ edit ∈ edits, edit.Misses r) :
    (env.edited edits).host.respond before r = env.host.respond before r := by
  induction edits generalizing env with
  | nil => rfl
  | cons edit edits ih =>
    calc ((env.edit edit).edited edits).host.respond before r
        = (env.edit edit).host.respond before r :=
          ih fun later hlater => h later (List.mem_cons_of_mem edit hlater)
      _ = env.host.respond before r := respond_edit (h edit List.mem_cons_self)

/-- What is added misses every request that the environment has an answer to. -/
theorem AddsTo.misses {v : Value} (hadds : edit.AddsTo env)
    (hanswer : env.host.respond before r = .ok v) : edit.Misses r := by
  cases edit with
  | remove name => exact hadds.elim
  | set name value =>
    cases r with
    | call other args => trivial
    | read other =>
      intro hname
      subst hname
      have hnone : env.get? name = none := hadds
      simp [Environment.host, Host.ofFunctions, Environment.read, hnone] at hanswer
  | register name function =>
    cases r with
    | read other => trivial
    | call other args =>
      intro hname
      subst hname
      have hnone : env.function? name = none := hadds
      simp [Environment.host, Host.ofFunctions, Environment.call, hnone] at hanswer

end Edit

/-! ### Evaluations -/

/-- **An evaluation depends on the answers that it gets.**  A host, if there is one, that answers
everything that an evaluation asks of another host as that one does, or as the evaluation without a
host would be answered, is asked the same in the same order, and the value or the error is the same.
So what has a value without a host has it with any host, and a host that knows variables only does
as well as one with functions that are not called.  An evaluation in an environment stays as it is
when variables are set or removed that were not read, and functions are registered that were not
called.  And one that has a value keeps it when variables and functions are added. -/
theorem evaluation_depends_on_answers (e : Expr) :
    (∀ host other : Option Host,
      (Host.given host).AgreesWith (.given other) [] (e.evaluate.run (.given other)).requests →
        e.evaluate.run (.given host) = e.evaluate.run (.given other)) ∧
    (∀ v, (e.evaluate.run (.given none)).result = .ok v →
      ∀ host, e.evaluate.run host = ⟨.ok v, []⟩) ∧
    (∀ read call,
      (∀ r ∈ (e.evaluate.run (.ofFunctions read call)).requests, ∃ name, r = .read name) →
        e.evaluate.run (.ofVariables read) = e.evaluate.run (.ofFunctions read call)) ∧
    (∀ (env : Environment) (edits : List Edit),
      (∀ edit ∈ edits, ∀ r ∈ (e.evaluate.run env.host).requests, edit.Misses r) →
        e.evaluate.run (env.edited edits).host = e.evaluate.run env.host) ∧
    ∀ (env : Environment) (edits : List Edit) (v : Value),
      (e.evaluate.run env.host).result = .ok v → (∀ edit ∈ edits, edit.AddsTo env) →
        e.evaluate.run (env.edited edits).host = e.evaluate.run env.host := by
  refine ⟨fun host other => Dialogue.runAfter_eq_of_agrees, ?absent, ?reads, ?missed, ?added⟩
  case absent =>
    intro v hvalue host
    rw [Dialogue.eq_finish_of_refused Host.respond_absent_ne_ok hvalue]
    rfl
  case reads =>
    intro read call hreads
    apply Dialogue.runAfter_eq_of_agrees
    intro before r after hsplit _
    obtain ⟨name, rfl⟩ := hreads r (by rw [Dialogue.run, hsplit]; simp)
    rfl
  case missed =>
    intro env edits hmisses
    apply Dialogue.runAfter_eq_of_agrees
    intro before r after hsplit _
    have hasked : r ∈ (e.evaluate.run env.host).requests := by
      rw [Dialogue.run, hsplit]
      simp
    exact Edit.respond_edited fun edit hedit => hmisses edit hedit r hasked
  case added =>
    intro env edits v hvalue hadds
    have hrun : e.evaluate.run env.host = ⟨.ok v, (e.evaluate.run env.host).requests⟩ := by
      rw [← hvalue]
    rw [hrun]
    apply Dialogue.runAfter_eq_of_answers_more ?_ hrun
    intro before r w hanswer
    rw [← hanswer]
    exact Edit.respond_edited fun edit hedit => (hadds edit hedit).misses hanswer

/-- In `x || f(y)` a true `x` is all that is asked for: a host without functions does as well, and
neither a `y` nor an `f` that come later change anything.  Without a host nothing but the error that
there is none comes of it, as with a host that knows `f` but says the same of `x`; and `true || x`
is true all the same. -/
theorem true_left_operand_is_all_that_matters :
    let e := Expr.binary .or (.var "x" (.byte 0))
      (.call "f" [.var "y" (.byte 7)] (.byte 5)) (.byte 2)
    let env := Environment.empty.set "x" (.boolean true)
    let more := [Edit.set "y" (.boolean false), Edit.register "f" fun _ => .error .divisionByZero]
    let estranged := Host.ofFunctions (fun name => .error (.noEnvironment name))
      fun _ _ => .ok (.boolean true)
    let decided :=
      Expr.binary .or (.literal (.boolean true) (.byte 0)) (.var "x" (.byte 8)) (.byte 5)
    (∀ r ∈ (e.evaluate.run env.host).requests, r = .read "x") ∧
      e.evaluate.run env.variablesHost = e.evaluate.run env.host ∧
      e.evaluate.run (env.edited (.remove "y" :: more)).host = e.evaluate.run env.host ∧
      e.evaluate.run (env.edited more).host = e.evaluate.run env.host ∧
      e.evaluate.run (.given (some estranged)) = e.evaluate.run (.given none) ∧
      decided.evaluate.run (.given none) = ⟨.ok (.boolean true), []⟩ ∧
      decided.evaluate.run estranged = ⟨.ok (.boolean true), []⟩ := by
  intro e env more estranged decided
  have hx : env.host.respond [] (.read "x") = .ok (.boolean true) := by
    simp [env, Environment.host, Host.ofFunctions, Environment.read]
  have hrun : e.evaluate.run env.host = ⟨.ok (.boolean true), [.read "x"]⟩ := by
    simp [e, Expr.evaluate, BinaryOp.decidedBy?, Dialogue.run, Dialogue.runAfter_bind, hx,
      Value.toBool]
    rfl
  have hasked : ∀ r ∈ (e.evaluate.run env.host).requests, r = .read "x" := by simp [hrun]
  have habsent : e.evaluate.run (.given none) = ⟨.error (.noEnvironment "x"), [.read "x"]⟩ := rfl
  have hdecided : decided.evaluate.run (.given none) = ⟨.ok (.boolean true), []⟩ := rfl
  obtain ⟨hagreement, -, hvariables, hmissed, hadded⟩ := evaluation_depends_on_answers e
  obtain ⟨-, hwithout, -⟩ := evaluation_depends_on_answers decided
  refine ⟨hasked, hvariables env.read env.call ?reads, hmissed env _ ?misses,
    hadded env more (.boolean true) (by rw [hrun]) ?adds,
    hagreement (some estranged) none ?agrees, hdecided,
    hwithout (.boolean true) (by rw [hdecided]) estranged⟩
  case reads =>
    intro r hr
    exact ⟨"x", hasked r hr⟩
  case misses =>
    intro edit hedit r hr
    rw [hasked r hr]
    simp only [more, List.mem_cons, List.not_mem_nil, or_false] at hedit
    rcases hedit with rfl | rfl | rfl <;> simp [Edit.Misses]
  case adds =>
    have hf : Environment.empty.function? "f" = none := by
      simp [Environment.function?, Environment.empty]
    simp [more, Edit.AddsTo, env, hf]
  case agrees =>
    intro before r after hsplit _
    have hasked : [.read "x"] = before ++ r :: after := (congrArg _ habsent).symm.trans hsplit
    have hr : r ∈ [Request.read "x"] := by
      rw [hasked]
      simp
    rw [List.mem_singleton.mp hr]
    rfl

end Reckon
