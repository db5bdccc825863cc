import Reckon.Text.ControlSequence
import Reckon.Value
/-!
# The options of the command line

Arguments are read from left to right. An argument that starts with two hyphens is a long option,
perhaps with a value after an equals sign; one that starts with a single hyphen holds short
options, the last of which may have its value attached. Two hyphens alone end the options. One
argument that is no option is the expression, or the path to it.

A value that stands in an argument of its own is looked at only when the next option or expression
begins, so that an argument that is no option at all is reported first.

* `Options.ofArguments` — the options that some arguments spell, or what is wrong with them.
-/

namespace Reckon

/-- Why an argument is no definition of a variable. -/
inductive DefinitionFault where
  /-- There is no equals sign. -/
  | noValue
  /-- There is nothing before the equals sign. -/
  | noName
deriving DecidableEq, Repr

/-- What is wrong with the arguments. -/
inductive UsageError where
  /-- The argument of `--var` is no definition. -/
  | badDefinition (argument : String) (fault : DefinitionFault)
  /-- The option `--var` stands without its definition. -/
  | noDefinition
  /-- An option that is unknown, or one expression too many. -/
  | unexpectedArgument (shown : String)
  /-- An option that takes no value was given one. -/
  | unexpectedValue (value option : String)
  /-- An option that may stand once stands again. -/
  | repeatedOption (option : String)
  /-- There is no expression. -/
  | noExpression
deriving DecidableEq, Repr

/-- The text of the fault, given the argument. -/
def DefinitionFault.message (argument : String) : DefinitionFault → String
  | noValue => s!"expected NAME=VALUE, found '{argument}'"
  | noName => s!"missing variable name in '{argument}'"

namespace UsageError

/-- Text in the style that a code stands for on a terminal. -/
def styled (code : Nat) (text : String) : String := s!"\x1b[{code}m" ++ text ++ "\x1b[0m"

/-- Text that has to be written as it is. -/
def bold (text : String) : String := styled 1 text

/-- The part of a message that says which error it is. What is wrong is yellow. -/
def styledReason : UsageError → String
  | badDefinition argument fault =>
    "invalid value '" ++ styled 33 argument ++ "' for '" ++ bold "--var <NAME=VALUE>" ++ "': " ++
      fault.message argument
  | noDefinition =>
    "a value is required for '" ++ bold "--var <NAME=VALUE>" ++ "' but none was supplied"
  | unexpectedArgument shown => "unexpected argument '" ++ styled 33 shown ++ "' found"
  | unexpectedValue value option =>
    "unexpected value '" ++ styled 33 value ++ "' for '" ++ bold option ++
      "' found; no more were expected"
  | repeatedOption option =>
    "the argument '" ++ styled 33 option ++ "' cannot be used multiple times"
  | noExpression => "the following required arguments were not provided:\n  <EXPRESSION>"

/-- The whole message as a terminal shows it. -/
def styledMessage (e : UsageError) : String :=
  styled 31 "error:" ++ " " ++ e.styledReason ++ "\n\nFor more information, try '" ++
    bold "--help" ++ "'.\n"

/-- The text of the error, for a reader that is no terminal. With the styles go the control
sequences that are a part of an argument. -/
def message (e : UsageError) : String := Text.ControlSequence.strip e.styledMessage

end UsageError

/-- What the command line asks for. -/
structure Options where
  /-- The variables that are defined, in order. -/
  definitions : List (String × Value) := []
  /-- Whether the tokens are listed. -/
  listTokens : Bool := false
  /-- Whether the expression is in a file. -/
  fromFile : Bool := false
  /-- The expression, or the path of its file. -/
  expression : String := ""

namespace Options

/-- The value that a definition gives: a truth value, a number, or else a string. -/
def valueOf (text : String) : Value :=
  if text = "true" then .boolean true
  else if text = "false" then .boolean false
  else match Numeral.readTrimmed? text with
    | some x => .number x
    | none => .string text

/-- The two sides of the first equals sign. -/
def splitEquals? (cs : List Char) : Option (List Char × List Char) :=
  match cs.dropWhile (· ≠ '=') with
  | [] => none
  | _ :: value => some (cs.takeWhile (· ≠ '='), value)

/-- The variable that an argument defines. -/
def definition (argument : String) : Except UsageError (String × Value) :=
  match splitEquals? argument.toList with
  | none => .error (.badDefinition argument .noValue)
  | some ([], _) => .error (.badDefinition argument .noName)
  | some (name, value) => .ok (String.ofList name, valueOf (String.ofList value))

/-- A definition that has begun. -/
inductive Pending where
  | none
  /-- The argument with the definition is still to come. -/
  | awaited
  /-- The argument that is the definition. -/
  | found (argument : String)

/-- What has been read of the arguments. -/
structure Progress where
  options : Options := {}
  pending : Pending := .none
  /-- Whether the expression has been read. -/
  complete : Bool := false
  /-- Whether the options have been ended. -/
  optionsEnded : Bool := false

namespace Progress

/-- Adds a definition. -/
def define (p : Progress) (argument : String) : Except UsageError Progress := do
  let defined ← definition argument
  let definitions := p.options.definitions ++ [defined]
  return { p with options := { p.options with definitions }, pending := .none }

/-- Brings a definition that has begun to its end. -/
def settle (p : Progress) : Except UsageError Progress :=
  match p.pending with
  | .none => .ok p
  | .awaited => .error .noDefinition
  | .found argument => p.define argument

/-- Reads the option `--var`, with its definition if that is attached. -/
def readVar (p : Progress) (attached : Option String) : Except UsageError Progress := do
  let p ← p.settle
  match attached with
  | some argument => p.define argument
  | none => return { p with pending := .awaited }

/-- Reads the option `--tokens`. -/
def readTokens (p : Progress) : Except UsageError Progress := do
  let p ← p.settle
  if p.options.listTokens then throw (.repeatedOption "--tokens")
  else return { p with options := { p.options with listTokens := true } }

/-- Reads the option `--file`. -/
def readFile (p : Progress) : Except UsageError Progress := do
  let p ← p.settle
  if p.options.fromFile then throw (.repeatedOption "--file")
  else return { p with options := { p.options with fromFile := true } }

/-- Reads a long option without its hyphens. -/
def readLong (p : Progress) (cs : List Char) : Except UsageError Progress :=
  let (nameChars, attached) := match splitEquals? cs with
    | some (name, value) => (name, some (String.ofList value))
    | none => (cs, none)
  let name := String.ofList nameChars
  if name = "var" then p.readVar attached
  else if name = "tokens" ∨ name = "file" then
    match attached with
    | some value => .error (.unexpectedValue value ("--" ++ name))
    | none => if name = "tokens" then p.readTokens else p.readFile
  else .error (.unexpectedArgument ("--" ++ name))

/-- Reads short options without their hyphen. -/
def readShort (p : Progress) : List Char → Except UsageError Progress
  | [] => .ok p
  | 't' :: cs => do (← p.readTokens).readShort cs
  | 'f' :: cs => do (← p.readFile).readShort cs
  | ['v'] => p.readVar none
  | 'v' :: '=' :: cs => p.readVar (some (String.ofList cs))
  | 'v' :: cs => p.readVar (some (String.ofList cs))
  | c :: _ => .error (.unexpectedArgument (String.ofList ['-', c]))

/-- Reads an argument that is no option: a definition if one is awaited, or the expression. -/
def readPlain (p : Progress) (argument : String) : Except UsageError Progress :=
  match p.pending, p.optionsEnded with
  | .awaited, false => .ok { p with pending := .found argument }
  | _, _ =>
    if p.complete then .error (.unexpectedArgument argument)
    else do
      let p ← p.settle
      return { p with options := { p.options with expression := argument }, complete := true }

/-- Reads one argument. -/
def read (p : Progress) (argument : String) : Except UsageError Progress :=
  if p.optionsEnded then p.readPlain argument
  else match argument.toList with
    | ['-', '-'] => .ok { p with optionsEnded := true }
    | '-' :: '-' :: cs => p.readLong cs
    | ['-'] => p.readPlain argument
    | '-' :: cs => p.readShort cs
    | _ => p.readPlain argument

end Progress

/-- The options that the arguments spell. -/
def ofArguments (arguments : List String) : Except UsageError Options := do
  let p ← arguments.foldlM Progress.read {}
  let p ← p.settle
  if p.complete then return p.options else throw .noExpression

end Options

end Reckon
