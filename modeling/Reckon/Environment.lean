import Reckon.Dialogue
import Reckon.Text.Quoted
import Reckon.Number.Shortest
import Std.Data.TreeMap
/-!
# Environments

The host that most programs need: a store of variables beside a store of functions. The two never
influence each other. Names are kept in the order of their bytes.

An environment is seen through `Environment.get?` and `Environment.function?`: the lemmas say what
each operation does to these two, and what the other questions about an environment have to do
with them.
-/

namespace Reckon

/-- A function that an environment offers to expressions. -/
abbrev HostFunction := List Value → Except EvalError Value

/-- Variables and functions by name. -/
structure Environment where
  /-- The values of the variables. -/
  values : Std.TreeMap String Value
  /-- The functions. -/
  functions : Std.TreeMap String HostFunction

namespace Environment

/-- The environment without any name. -/
def empty : Environment := ⟨∅, ∅⟩

instance : Inhabited Environment := ⟨empty⟩

/-- The environment with these variables and no function. Of several values for one name the last
one stays. -/
def ofVariables (bindings : List (String × Value)) : Environment :=
  { values := bindings.foldl (fun store (name, value) => store.insert name value) ∅
    functions := ∅ }

/-- Gives a variable a value, in place of the one it had. -/
def set (env : Environment) (name : String) (value : Value) : Environment :=
  { env with values := env.values.insert name value }

/-- The value of a variable. -/
def get? (env : Environment) (name : String) : Option Value := env.values[name]?

/-- Takes a variable away, and gives the value it had. -/
def remove (env : Environment) (name : String) : Option Value × Environment :=
  (env.values[name]?, { env with values := env.values.erase name })

/-- Whether there is a variable of this name. -/
def contains (env : Environment) (name : String) : Bool := env.values.contains name

/-- Takes all variables away. Functions stay. -/
def clear (env : Environment) : Environment := { env with values := ∅ }

/-- The number of variables. -/
def size (env : Environment) : Nat := env.values.size

/-- Whether there is no variable. -/
def isEmpty (env : Environment) : Bool := env.values.isEmpty

/-- The names of the variables, in the order of their bytes. -/
def names (env : Environment) : List String := env.values.keys

/-- Offers a function under a name, in place of the one it had. -/
def register (env : Environment) (name : String) (function : HostFunction) : Environment :=
  { env with functions := env.functions.insert name function }

/-- The function of a name. -/
def function? (env : Environment) (name : String) : Option HostFunction := env.functions[name]?

/-- The value of a variable, or the error that there is none. -/
def read (env : Environment) (name : String) : Except EvalError Value :=
  match env.get? name with
  | some value => .ok value
  | none => .error (.unknownVariable name)

/-- The value of a function at some arguments, or the error that there is no such function. -/
def call (env : Environment) (name : String) (args : List Value) : Except EvalError Value :=
  match env.function? name with
  | some function => function args
  | none => .error (.unknownFunction name)

/-- The host that answers from the environment. -/
def host (env : Environment) : Host := .ofFunctions env.read env.call

/-- The host that answers from the variables alone, as if there were no function. -/
def variablesHost (env : Environment) : Host := .ofVariables env.read

/-! ### What the operations do -/

section Lemmas

variable (env : Environment) (name other : String) (value : Value) (function : HostFunction)

@[simp]
theorem get?_empty : empty.get? name = none := by simp [get?, empty]

/-- A variable has the value it was given, and the others keep theirs. -/
@[simp]
theorem get?_set :
    (env.set name value).get? other = if name = other then some value else env.get? other := by
  simp [get?, set, Std.TreeMap.getElem?_insert]

@[simp]
theorem remove_fst : (env.remove name).1 = env.get? name := rfl

/-- A variable that was taken away has no value, and the others keep theirs. -/
@[simp]
theorem get?_remove :
    (env.remove name).2.get? other = if name = other then none else env.get? other := by
  simp [get?, remove, Std.TreeMap.getElem?_erase]

@[simp]
theorem get?_clear : env.clear.get? name = none := by simp [get?, clear]

@[simp]
theorem get?_register : (env.register other function).get? name = env.get? name := rfl

/-- A name has the function it was given, and the others keep theirs. -/
@[simp]
theorem function?_register :
    (env.register name function).function? other =
      if name = other then some function else env.function? other := by
  simp [function?, register, Std.TreeMap.getElem?_insert]

@[simp]
theorem function?_set : (env.set name value).function? other = env.function? other := rfl

@[simp]
theorem function?_remove : (env.remove name).2.function? other = env.function? other := rfl

@[simp]
theorem function?_clear : env.clear.function? name = env.function? name := rfl

@[simp]
theorem function?_ofVariables (bindings : List (String × Value)) :
    (ofVariables bindings).function? name = none := by simp [function?, ofVariables]

/-- An environment that starts with variables is one in which they were set in turn. -/
theorem ofVariables_append (bindings : List (String × Value)) :
    ofVariables (bindings ++ [(name, value)]) = (ofVariables bindings).set name value := by
  simp [ofVariables, set]

theorem contains_eq_isSome : env.contains name = (env.get? name).isSome := by
  simp [contains, get?]

theorem mem_names : name ∈ env.names ↔ env.contains name := by simp [contains, names]

theorem length_names : env.names.length = env.size := by simp [names, size]

theorem isEmpty_iff : env.isEmpty ↔ env.size = 0 := by
  simp [isEmpty, size, Std.TreeMap.isEmpty_eq_size_eq_zero]

/-- The names of the variables ascend, so that none is listed twice. -/
theorem names_ordered : env.names.Pairwise (· < ·) := by
  refine env.values.ordered_keys.imp fun {a b} h => ?_
  simp only [compare, String.compare, compareOfLessAndEq] at h
  grind

end Lemmas

/-! ### Listing -/

/-- How a listing shows a value: with its type, numbers in full and strings quoted. -/
def describeValue : Value → String
  | .number x => "Number(" ++ x.precise ++ ")"
  | .boolean b => "Bool(" ++ (if b then "true" else "false") ++ ")"
  | .string s => "String(" ++ Text.quoted s ++ ")"

/-- The variables with their values and the names of the functions, on one line. -/
def describe (env : Environment) : String :=
  let bindings := env.values.toList.map fun (name, value) =>
    Text.quoted name ++ ": " ++ describeValue value
  let functions := env.functions.keys.map Text.quoted
  "MapEnvironment \x7b variables: \x7b" ++ ", ".intercalate bindings ++ "\x7d, functions: [" ++
    ", ".intercalate functions ++ "] \x7d"

end Environment

end Reckon
