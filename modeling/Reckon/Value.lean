import Reckon.EvalError
import Reckon.Number.Arithmetic
import Reckon.Number.Fixed
import Reckon.Number.Numeral
/-!
# Values

A value is a number, a truth value or a string. Every value reads as a truth value and as a string;
a string reads as a number only if it is a numeral. Equality in the language is defined here too:
a string equals only itself, and numbers and truth values mix, as numbers with a tolerance.
-/

namespace Reckon

/-- A value of the language. -/
inductive Value where
  | number (x : Number)
  | boolean (b : Bool)
  | string (s : String)
deriving DecidableEq

namespace Value

/-- The number zero is the value where none is given. -/
instance : Inhabited Value := ⟨number 0⟩

/-- The number with an integer value. -/
def ofInt (n : Int) : Value := number (Float.ofInt n)

/-- The name of the value's type. -/
def typeName : Value → String
  | number _ => "number"
  | boolean _ => "boolean"
  | string _ => "string"

/-- Whether the value is a number. -/
def isNumber : Value → Bool
  | number _ => true
  | _ => false

/-- Whether the value is a truth value. -/
def isBoolean : Value → Bool
  | boolean _ => true
  | _ => false

/-- Whether the value is a string. -/
def isString : Value → Bool
  | string _ => true
  | _ => false

/-! ### Reading a value as another type -/

/-- The value as a number. -/
def toNumber : Value → Except EvalError Number
  | number x => .ok x
  | boolean b => .ok (.ofBool b)
  | string s =>
    if s = "" then .error .emptyString
    else match Numeral.readTrimmed? s with
      | some x => .ok x
      | none => .error (.notNumeral s)

/-- The strings that read as false beside the empty one, in letters of either case. -/
def falseWords : List String := ["false", "no", "0"]

/-- The value as a truth value. Of the numbers, the two zeros read as false. -/
def toBool : Value → Bool
  | number x => x != 0
  | boolean b => b
  | string s => s != "" && !falseWords.contains (String.ofList (s.toList.map Char.toLower))

/-- The value as a string, which is also how it is shown. -/
def toText : Value → String
  | number x => x.fixed
  | boolean b => if b then "true" else "false"
  | string s => s

/-! ### Equality -/

/-- Equality as the language has it. -/
def equals : Value → Value → Bool
  | string s, string t => s == t
  | string _, _ => false
  | _, string _ => false
  | boolean a, boolean b => a == b
  | number x, number y => x.approxEq y
  | number x, boolean b => x.approxEq (.ofBool b)
  | boolean b, number x => x.approxEq (.ofBool b)

/-- Whether two values are the same in a tree. Numbers are compared exactly: the two zeros are the
same, and what is no number differs from itself. -/
def same : Value → Value → Bool
  | number x, number y => x == y
  | boolean a, boolean b => a == b
  | string s, string t => s == t
  | _, _ => false

end Value

end Reckon
