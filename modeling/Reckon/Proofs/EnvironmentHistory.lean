import Mathlib.Data.List.Induction
import Reckon.Proofs.ByteOrder
import Reckon.Proofs.HostAgreement
/-!
# What an environment has been through

An environment is changed again and again, and now and then a new one takes its place.  What it
holds in the end is told by the history of these events: a variable has the value that it was given
last, if nothing took it away later, and a name has the function that was registered last in the
environment as it is now.  Taking all variables away leaves the functions, while a new environment
starts without any.

* `Event` — what can be done to an environment;
* `Latest` — what the events of a history leave behind;
* `view_after_iff` — a part of an environment that each event treats alike is what the history
  leaves behind;
* `describe_congr` — what is shown of an environment;
* `faithful_after` — an environment holds what its history says.
-/

namespace Reckon

/-- What is done to an environment. -/
inductive Event where
  /-- A new environment with these variables and without functions takes its place. -/
  | renew (bindings : List (String × Value))
  /-- All variables are taken away. -/
  | clear
  /-- One variable or function is changed. -/
  | edit (change : Edit)

namespace Environment

/-- The environment after an event. -/
def step (env : Environment) : Event → Environment
  | .renew bindings => ofVariables bindings
  | .clear => env.clear
  | .edit change => env.edit change

/-- The environment after all events of a history, the first of them first. -/
def after (history : List Event) : Environment := history.foldl step empty

theorem after_concat (history : List Event) (event : Event) :
    after (history ++ [event]) = (after history).step event := by
  simp [after]

end Environment

/-! ### What a history says -/

namespace Event

/-- The event gives the variable a value.  A new environment gives it the last one that is listed
for it. -/
def Assigns (name : String) : Event → Value → Prop
  | .edit (.set other v), value => other = name ∧ v = value
  | .renew bindings, value =>
    ∃ front back, bindings = front ++ (name, value) :: back ∧ ∀ b ∈ back, b.1 ≠ name
  | _, _ => False

/-- The event takes from the variable the value that it had. -/
def Revokes (name : String) : Event → Prop
  | .edit (.remove other) => other = name
  | .clear | .renew _ => True
  | _ => False

/-- The event offers the function under the name. -/
def Registers (name : String) : Event → HostFunction → Prop
  | .edit (.register other f), function => other = name ∧ f = function
  | _, _ => False

/-- A new environment takes the place of the old one. -/
def Renews : Event → Prop
  | .renew _ => True
  | _ => False

/-- Whether the event has to do with variables. -/
def concernsVariables : Event → Bool
  | .edit (.register _ _) => false
  | _ => true

/-- Whether the event has to do with functions. -/
def concernsFunctions : Event → Bool
  | .renew _ | .edit (.register _ _) => true
  | _ => false

end Event

section Latest

variable {α : Type} {gives : Event → α → Prop} {ends : Event → Prop}
  {history : List Event} {event : Event} {a : α}

/-- Some event of the history gives `a`, and no later one gives anything or ends what was given
before it. -/
def Latest (gives : Event → α → Prop) (ends : Event → Prop) (history : List Event) (a : α) : Prop :=
  ∃ before event later, history = before ++ event :: later ∧ gives event a ∧
    ∀ other ∈ later, ¬ ends other ∧ ∀ b, ¬ gives other b

theorem not_latest_nil : ¬ Latest gives ends [] a := by
  rintro ⟨before, event, later, hsplit, -, -⟩
  simp at hsplit

/-- **One more event.**  It leaves behind what it gives, or else what was there before it. -/
theorem latest_concat_iff :
    Latest gives ends (history ++ [event]) a ↔
      gives event a ∨ (¬ ends event ∧ ∀ b, ¬ gives event b) ∧ Latest gives ends history a := by
  constructor
  · rintro ⟨before, first, later, hsplit, hgives, hlater⟩
    rcases List.eq_nil_or_concat later with rfl | ⟨later, last, rfl⟩
    · obtain ⟨-, hlast⟩ := List.append_inj' hsplit rfl
      cases hlast
      exact .inl hgives
    · rw [List.concat_eq_append, ← List.cons_append, ← List.append_assoc] at hsplit
      obtain ⟨rfl, hlast⟩ := List.append_inj' hsplit rfl
      cases hlast
      exact .inr ⟨hlater event (by simp), before, first, later, rfl, hgives,
        fun other hother => hlater other (by simp [hother])⟩
  · rintro (hgives | ⟨hkeeps, before, first, later, rfl, hgives, hlater⟩)
    · exact ⟨history, event, [], rfl, hgives, by simp⟩
    · refine ⟨before, first, later ++ [event], by simp, hgives, fun other hother => ?_⟩
      rcases List.mem_append.mp hother with hother | hother
      · exact hlater other hother
      · exact List.mem_singleton.mp hother ▸ hkeeps

/-- **A part of an environment** that is empty at first, and of which each event leaves what it
gives or else what was there, is what the history leaves behind. -/
theorem view_after_iff (view : Environment → Option α) (hempty : view .empty = none)
    (hstep : ∀ env event a, view (env.step event) = some a ↔
      gives event a ∨ (¬ ends event ∧ ∀ b, ¬ gives event b) ∧ view env = some a)
    (history : List Event) (a : α) :
    view (.after history) = some a ↔ Latest gives ends history a := by
  induction history using List.reverseRecOn generalizing a with
  | nil =>
    rw [Environment.after, List.foldl_nil, hempty]
    simp [not_latest_nil]
  | append_singleton history event ih =>
    rw [Environment.after_concat, hstep, latest_concat_iff, ih]

end Latest

/-- The history leaves the variable with the value. -/
def Holds (history : List Event) (name : String) (value : Value) : Prop :=
  Latest (Event.Assigns name) (Event.Revokes name) history value

/-- The history leaves the name with the function. -/
def Offers (history : List Event) (name : String) (function : HostFunction) : Prop :=
  Latest (Event.Registers name) Event.Renews history function

/-! ### What an event does -/

namespace Environment

variable (env : Environment) (event : Event) (name : String)

/-- Of the values listed for a variable, a new environment has the last one. -/
theorem get?_ofVariables_eq_some_iff {bindings : List (String × Value)} {value : Value} :
    (ofVariables bindings).get? name = some value ↔
      ∃ front back, bindings = front ++ (name, value) :: back ∧ ∀ b ∈ back, b.1 ≠ name := by
  induction bindings using List.reverseRecOn with
  | nil =>
    have hempty : ofVariables [] = empty := rfl
    simp [hempty]
  | append_singleton bindings binding ih =>
    obtain ⟨other, v⟩ := binding
    rw [ofVariables_append, get?_set]
    constructor
    · intro h
      split at h
      · next hsame =>
        cases h
        exact ⟨bindings, [], by rw [hsame], by simp⟩
      · next hother =>
        obtain ⟨front, back, rfl, hback⟩ := ih.mp h
        refine ⟨front, back ++ [(other, v)], by simp, fun b hb => ?_⟩
        rcases List.mem_append.mp hb with hb | hb
        · exact hback b hb
        · exact List.mem_singleton.mp hb ▸ hother
    · rintro ⟨front, back, hsplit, hback⟩
      rcases List.eq_nil_or_concat back with rfl | ⟨back, last, rfl⟩
      · obtain ⟨-, hlast⟩ := List.append_inj' hsplit rfl
        cases hlast
        rw [if_pos rfl]
      · rw [List.concat_eq_append, ← List.cons_append, ← List.append_assoc] at hsplit
        obtain ⟨rfl, hlast⟩ := List.append_inj' hsplit rfl
        cases hlast
        have hother : other ≠ name := hback (other, v) (by simp)
        rw [if_neg hother, ih]
        exact ⟨front, back, rfl, fun b hb => hback b (by simp [hb])⟩

/-- **One event and a variable.** -/
theorem get?_step_eq_some_iff (value : Value) :
    (env.step event).get? name = some value ↔
      event.Assigns name value ∨
        (¬ event.Revokes name ∧ ∀ v, ¬ event.Assigns name v) ∧ env.get? name = some value := by
  cases event with
  | renew bindings =>
    rw [step, get?_ofVariables_eq_some_iff]
    simp [Event.Assigns, Event.Revokes]
  | clear => simp [step, Event.Assigns, Event.Revokes]
  | edit change =>
    cases change with
    | set other v =>
      by_cases hname : other = name <;> simp [step, edit, Event.Assigns, Event.Revokes, hname]
    | remove other =>
      by_cases hname : other = name <;> simp [step, edit, Event.Assigns, Event.Revokes, hname]
    | register other f => simp [step, edit, Event.Assigns, Event.Revokes]

/-- **One event and a function.** -/
theorem function?_step_eq_some_iff (function : HostFunction) :
    (env.step event).function? name = some function ↔
      event.Registers name function ∨
        (¬ event.Renews ∧ ∀ f, ¬ event.Registers name f) ∧ env.function? name = some function := by
  cases event with
  | renew bindings => simp [step, Event.Registers, Event.Renews]
  | clear => simp [step, Event.Registers, Event.Renews]
  | edit change =>
    cases change with
    | set other v => simp [step, edit, Event.Registers, Event.Renews]
    | remove other => simp [step, edit, Event.Registers, Event.Renews]
    | register other f =>
      by_cases hname : other = name <;> simp [step, edit, Event.Registers, Event.Renews, hname]

/-! ### What is shown of an environment -/

/-- **A description** shows the variables with their values, and of the functions the names.
Environments that agree on these are described alike, whatever the functions do. -/
theorem describe_congr {env other : Environment}
    (hvalues : ∀ name, env.get? name = other.get? name)
    (hfunctions : ∀ name, (env.function? name).isSome = (other.function? name).isSome) :
    env.describe = other.describe := by
  have hbindings : env.values.toList = other.values.toList :=
    (Std.TreeMap.Equiv.of_forall_constGet?_eq fun name => hvalues name).toList_eq
  have hnames : env.functions.keys = other.functions.keys := by
    -- the keys stay when every function is replaced by the same thing
    rw [← Std.TreeMap.keys_map (f := fun _ _ => ()) (t := env.functions),
      ← Std.TreeMap.keys_map (f := fun _ _ => ()) (t := other.functions)]
    refine (Std.TreeMap.Equiv.of_forall_mem_unit_iff fun name => ?_).keys_eq
    have hsame := hfunctions name
    simp only [function?, Std.TreeMap.isSome_getElem?_eq_contains] at hsame
    rw [Std.TreeMap.mem_map, Std.TreeMap.mem_map, ← Std.TreeMap.contains_iff_mem, hsame,
      Std.TreeMap.contains_iff_mem]
  unfold describe
  rw [hbindings, hnames]

/-! ### Variables and functions apart -/

/-- Events that do not concern a part of an environment may be left out of its history, if the
others only look at that part. -/
theorem after_filter {β : Type} {part : Environment → β} {concerns : Event → Bool}
    (hskip : ∀ env event, concerns event = false → part (env.step event) = part env)
    (hcongr : ∀ env other event, part env = part other →
      part (env.step event) = part (other.step event)) (history : List Event) :
    part (after (history.filter concerns)) = part (after history) := by
  induction history using List.reverseRecOn with
  | nil => rfl
  | append_singleton history event ih =>
    rw [after_concat]
    cases hevent : concerns event with
    | true =>
      rw [List.filter_append, List.filter_cons_of_pos hevent, List.filter_nil, after_concat]
      exact hcongr _ _ event ih
    | false =>
      rw [List.filter_append, List.filter_cons_of_neg (by simp [hevent]), List.filter_nil,
        List.append_nil, ih, hskip _ event hevent]

theorem values_after_filter (history : List Event) :
    (after (history.filter Event.concernsVariables)).values = (after history).values := by
  apply after_filter
  · intro env event hevent
    cases event with
    | renew | clear => cases hevent
    | edit change =>
      cases change with
      | set | remove => cases hevent
      | register => rfl
  · intro env other event hsame
    cases event with
    | renew | clear => rfl
    | edit change => cases change <;> simp [step, edit, set, remove, register, hsame]

theorem functions_after_filter (history : List Event) :
    (after (history.filter Event.concernsFunctions)).functions = (after history).functions := by
  apply after_filter
  · intro env event hevent
    cases event with
    | renew => cases hevent
    | clear => rfl
    | edit change =>
      cases change with
      | set | remove => rfl
      | register => cases hevent
  · intro env other event hsame
    cases event with
    | renew => rfl
    | clear => exact hsame
    | edit change => cases change <;> simp [step, edit, set, remove, register, hsame]

end Environment

/-! ### The whole -/

/-- The environment holds what the history says, and all its answers agree with each other. -/
structure Environment.Faithful (env : Environment) (history : List Event) : Prop where
  /-- A variable has the value that the history leaves it with, -/
  read_ok_iff : ∀ name value, env.read name = .ok value ↔ Holds history name value
  /-- and is unknown if there is none. -/
  read_unknown_iff : ∀ name, env.read name = .error (.unknownVariable name) ↔
    ∀ value, ¬ Holds history name value
  /-- Taking a variable away gives the value that it has, -/
  remove_value : ∀ name, (env.remove name).1 = (env.read name).toOption
  /-- and leaves the other ones as they are. -/
  remove_others : ∀ name other, other ≠ name → (env.remove name).2.read other = env.read other
  contains_iff_read : ∀ name, env.contains name ↔ ∃ value, env.read name = .ok value
  contains_iff_mem : ∀ name, env.contains name ↔ name ∈ env.names
  names_ascend : env.names.Pairwise fun a b => Text.bytes a < Text.bytes b
  length_names : env.names.length = env.size
  isEmpty_iff_names : env.isEmpty ↔ env.names = []
  /-- A name that the history leaves with a function is called as that function, -/
  call_offered : ∀ name function, Offers history name function →
    ∀ args, env.call name args = function args
  /-- and is unknown if there is none. -/
  call_unknown : ∀ name, (∀ function, ¬ Offers history name function) →
    ∀ args, env.call name args = .error (.unknownFunction name)
  /-- What was done to functions is not seen in the variables, -/
  variables_alone : ∀ name,
    env.read name = (after (history.filter Event.concernsVariables)).read name
  /-- nor what was done to variables in the functions. -/
  functions_alone : ∀ name args,
    env.call name args = (after (history.filter Event.concernsFunctions)).call name args

namespace Environment

variable (env : Environment) (name : String)

theorem read_eq_ok_iff {value : Value} :
    env.read name = .ok value ↔ env.get? name = some value := by
  rw [read]
  cases env.get? name <;> simp

theorem read_eq_unknown_iff :
    env.read name = .error (.unknownVariable name) ↔ env.get? name = none := by
  rw [read]
  cases env.get? name <;> simp

theorem get?_after_iff (history : List Event) (value : Value) :
    (after history).get? name = some value ↔ Holds history name value :=
  view_after_iff (get? · name) (get?_empty name)
    (fun env event => get?_step_eq_some_iff env event name) history value

theorem function?_after_iff (history : List Event) (function : HostFunction) :
    (after history).function? name = some function ↔ Offers history name function :=
  view_after_iff (function? · name) (by simp [function?, empty])
    (fun env event => function?_step_eq_some_iff env event name) history function

/-- **An environment is faithful to its history**, whatever that is. -/
theorem faithful_after (history : List Event) : (after history).Faithful history where
  read_ok_iff name value := by rw [read_eq_ok_iff, get?_after_iff]
  read_unknown_iff name := by
    simp only [read_eq_unknown_iff, ← get?_after_iff, Option.eq_none_iff_forall_ne_some, ne_eq]
  remove_value name := by
    rw [remove_fst, read]
    cases (after history).get? name <;> rfl
  remove_others name other hother := by
    have hsame : ((after history).remove name).2.get? other = (after history).get? other := by
      rw [get?_remove, if_neg hother.symm]
    rw [read, hsame, read]
  contains_iff_read name := by
    simp only [contains_eq_isSome, Option.isSome_iff_exists, read_eq_ok_iff]
  contains_iff_mem name := (mem_names _ name).symm
  names_ascend := (names_ordered _).imp Text.bytes_lt_iff.mpr
  length_names := Environment.length_names _
  isEmpty_iff_names := by rw [isEmpty_iff, ← Environment.length_names, List.length_eq_zero_iff]
  call_offered name function hoffers args := by
    rw [call, (function?_after_iff name history function).mpr hoffers]
  call_unknown name hnone args := by
    have hfunction : (after history).function? name = none := by
      simpa only [Option.eq_none_iff_forall_ne_some, ne_eq, function?_after_iff] using hnone
    rw [call, hfunction]
  variables_alone name := by rw [read, read, get?, get?, values_after_filter]
  functions_alone name args := by rw [call, call, function?, function?, functions_after_filter]

end Environment

end Reckon
