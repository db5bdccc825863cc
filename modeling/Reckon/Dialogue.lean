import Reckon.Value
/-!
# Dialogues with a host

Evaluation asks a host for the values of variables and calls, one request at a time, and what it
asks next depends on the answers. A dialogue is such an evaluation with its requests left open: it
has an answer, or it has failed, or it makes a request and goes on with the value it gets. A host
may remember what it was asked before. Running a dialogue against a host gives a result and the
requests that were made.

* `Dialogue` — the open evaluation, a monad;
* `Host` — what answers, knowing the earlier requests;
* `Dialogue.run` — a dialogue against a host;
* `Dialogue.runAfter_bind` — two dialogues in a row run one after the other, and the second one is
  not begun if the first fails.
-/

namespace Reckon

/-- What evaluation asks of its host. -/
inductive Request where
  /-- The value of a variable. -/
  | read (name : String)
  /-- The value of a function at these arguments. -/
  | call (name : String) (args : List Value)
deriving DecidableEq

/-- An evaluation that may ask a host. A request that the host refuses ends it. -/
inductive Dialogue (α : Type) where
  /-- The evaluation is over and has a value. -/
  | finish (value : α)
  /-- The evaluation is over and has none. -/
  | fail (error : EvalError)
  /-- A request, and how the evaluation goes on with the answer. -/
  | ask (request : Request) (next : Value → Dialogue α)

/-- What answers requests. The earlier requests are given oldest first. -/
structure Host where
  respond : (earlier : List Request) → Request → Except EvalError Value

/-- How a dialogue went: what came out, and what was asked, oldest first. -/
structure Transcript (ε α : Type) where
  result : Except ε α
  requests : List Request

namespace Dialogue

variable {α β : Type}

/-- One dialogue after another, which depends on the value of the first. -/
def bind : Dialogue α → (α → Dialogue β) → Dialogue β
  | finish a, f => f a
  | fail e, _ => fail e
  | ask request next, f => ask request fun v => (next v).bind f

instance : Monad Dialogue where
  pure := finish
  bind := bind

/-- A result that needs no request. -/
def ofExcept : Except EvalError α → Dialogue α
  | .ok a => finish a
  | .error e => fail e

/-- Asks for one value. -/
def request (r : Request) : Dialogue Value := ask r finish

/-- The dialogue against the host, after the earlier requests. -/
def runAfter (host : Host) (earlier : List Request) : Dialogue α → Transcript EvalError α
  | finish a => ⟨.ok a, earlier⟩
  | fail e => ⟨.error e, earlier⟩
  | ask request next =>
    match host.respond earlier request with
    | .ok v => (next v).runAfter host (earlier ++ [request])
    | .error e => ⟨.error e, earlier ++ [request]⟩

/-- The dialogue against the host. -/
def run (host : Host) (dialogue : Dialogue α) : Transcript EvalError α := dialogue.runAfter host []

/-! ### How dialogues compose -/

@[simp]
theorem finish_bind (a : α) (f : α → Dialogue β) : (finish a >>= f) = f a := rfl

@[simp]
theorem fail_bind (e : EvalError) (f : α → Dialogue β) : (fail e >>= f) = fail e := rfl

@[simp]
theorem ask_bind (r : Request) (next : Value → Dialogue α) (f : α → Dialogue β) :
    (ask r next >>= f) = ask r fun v => next v >>= f := rfl

instance : LawfulMonad Dialogue := .mk' Dialogue
  (fun d => by
    induction d with
    | finish | fail => rfl
    | ask r next ih => exact congrArg (ask r) (funext ih))
  (fun _ _ => rfl)
  (fun d f g => by
    induction d with
    | finish | fail => rfl
    | ask r next ih => exact congrArg (ask r) (funext ih))

@[simp]
theorem runAfter_ofExcept (host : Host) (earlier : List Request) (result : Except EvalError α) :
    (ofExcept result).runAfter host earlier = ⟨result, earlier⟩ := by
  cases result <;> rfl

/-- A single request has the answer of the host. -/
@[simp]
theorem runAfter_request (host : Host) (earlier : List Request) (r : Request) :
    (request r).runAfter host earlier = ⟨host.respond earlier r, earlier ++ [r]⟩ := by
  simp only [request, runAfter]
  split <;> simp [*]

/-- **Requests in a row.** One dialogue after another runs as the second one does after the
requests of the first. If the first one fails, nothing more is asked. -/
theorem runAfter_bind (host : Host) (earlier : List Request) (d : Dialogue α)
    (f : α → Dialogue β) :
    (d >>= f).runAfter host earlier =
      match d.runAfter host earlier with
      | ⟨.ok a, requests⟩ => (f a).runAfter host requests
      | ⟨.error e, requests⟩ => ⟨.error e, requests⟩ := by
  induction d generalizing earlier with
  | finish | fail => rfl
  | ask r next ih =>
    simp only [ask_bind, runAfter]
    split
    · exact ih ..
    · rfl

theorem runAfter_bind_of_ok {host : Host} {h g : List Request} {d : Dialogue α} {a : α}
    (hd : d.runAfter host h = ⟨.ok a, g⟩) (f : α → Dialogue β) :
    (d >>= f).runAfter host h = (f a).runAfter host g := by
  rw [runAfter_bind, hd]

theorem runAfter_bind_of_error {host : Host} {h g : List Request} {d : Dialogue α} {e : EvalError}
    (hd : d.runAfter host h = ⟨.error e, g⟩) (f : α → Dialogue β) :
    (d >>= f).runAfter host h = ⟨.error e, g⟩ := by
  rw [runAfter_bind, hd]

/-- What is made of a value without the host asks nothing more. -/
theorem requests_bind_ofExcept (host : Host) (h : List Request) (d : Dialogue α)
    (f : α → Except EvalError β) :
    ((d >>= fun a => ofExcept (f a)).runAfter host h).requests = (d.runAfter host h).requests := by
  rw [runAfter_bind]
  rcases d.runAfter host h with ⟨_ | _, g⟩ <;> simp

/-- Two dialogues in a row have a value iff the first one has a value and then the second one. -/
theorem runAfter_bind_eq_ok_iff {host : Host} {h k : List Request} {d : Dialogue α}
    {f : α → Dialogue β} {b : β} :
    (d >>= f).runAfter host h = ⟨.ok b, k⟩ ↔
      ∃ a g, d.runAfter host h = ⟨.ok a, g⟩ ∧ (f a).runAfter host g = ⟨.ok b, k⟩ := by
  rw [runAfter_bind]
  rcases d.runAfter host h with ⟨_ | _, g⟩ <;> simp [and_assoc]

/-- Two dialogues in a row fail iff the first one does, or it has a value and the second one
fails. -/
theorem runAfter_bind_eq_error_iff {host : Host} {h k : List Request} {d : Dialogue α}
    {f : α → Dialogue β} {e : EvalError} :
    (d >>= f).runAfter host h = ⟨.error e, k⟩ ↔
      d.runAfter host h = ⟨.error e, k⟩ ∨
        ∃ a g, d.runAfter host h = ⟨.ok a, g⟩ ∧ (f a).runAfter host g = ⟨.error e, k⟩ := by
  rw [runAfter_bind]
  rcases d.runAfter host h with ⟨_ | _, g⟩ <;> simp [and_assoc]

/-- Requests are only ever added. -/
theorem prefix_requests (host : Host) (earlier : List Request) (d : Dialogue α) :
    earlier <+: (d.runAfter host earlier).requests := by
  induction d generalizing earlier with
  | finish | fail => exact List.prefix_rfl
  | ask r next ih =>
    simp only [runAfter]
    split
    · exact (List.prefix_append ..).trans (ih ..)
    · exact List.prefix_append ..

end Dialogue

namespace Host

/-- A host that has no memory. -/
def ofFunctions (read : String → Except EvalError Value)
    (call : String → List Value → Except EvalError Value) : Host where
  respond _ request :=
    match request with
    | .read name => read name
    | .call name args => call name args

/-- A host that knows variables only. It has no function of any name. -/
def ofVariables (read : String → Except EvalError Value) : Host :=
  ofFunctions read fun name _ => .error (.unknownFunction name)

/-- The host where there is none: it knows no variable and no function. -/
def absent : Host := ofVariables fun name => .error (.noEnvironment name)

/-- The host of an evaluation that may be given one. -/
def given : Option Host → Host
  | some host => host
  | none => absent

end Host

end Reckon
