/-!
# Control sequences

A terminal does not show all that it is sent. A control character acts at once, and the escape
character opens a sequence that goes on until some character ends it:

* an *escape sequence* ends at a character from `0` to `~`;
* a *control sequence* is opened by a bracket and ends at a character from `@` to `~`;
* a *device control string* is opened by `P`; after a header like a control sequence come its data;
* a *string* is opened by `X`, `^` or `_`;
* a *system command* is opened by the other bracket and ends at the bell.

Escape always opens a new sequence, and cancel and substitute end any. Strings and data also end at
the byte `9C`, even where it is a part of a longer character. A tab, a line feed, a form feed or a
carriage return is text, and breaks off a sequence of the first two sorts.

Text that goes elsewhere than to a terminal is stripped of all this.

* `ControlSequence.strip` — the characters that are left.
-/

namespace Reckon.Text.ControlSequence

/-- Where in a sequence a terminal is. -/
inductive State where
  /-- In none. -/
  | text
  /-- After the escape character. -/
  | escape
  /-- In an escape sequence that has begun with a character from the space to `/`. -/
  | escapeIntermediate
  /-- In a control sequence. -/
  | control
  /-- At the start of a device control string. -/
  | deviceEntry
  /-- Among the parameters of a device control string. -/
  | deviceParameters
  /-- Among the characters that end the header of a device control string. -/
  | deviceIntermediates
  /-- In a string, in the data of a device control string, or after a header that is wrong. -/
  | string
  /-- In a system command. -/
  | command
deriving DecidableEq, Repr

/-- The control characters that are text. -/
def isLayoutControl (c : Char) : Bool := c = '\t' ∨ c = '\n' ∨ c = '\x0c' ∨ c = '\r'

/-- Whether a character is text outside of all sequences. -/
def isText (c : Char) : Bool := isLayoutControl c ∨ (' ' ≤ c ∧ c ≠ '\x7f')

/-- Whether the byte that ends a string is one of the character's. -/
def endsString (c : Char) : Bool := (String.utf8EncodeChar c).contains 0x9C

/-- Whether a character is left of a text. -/
def isLeft (s : State) (c : Char) : Bool :=
  match s with
  | .text => isText c
  | .escape | .escapeIntermediate | .control => isLayoutControl c
  | .deviceEntry | .deviceParameters | .deviceIntermediates | .string | .command => false

/-- The state after a character that neither opens nor cancels a sequence. -/
def State.advance (s : State) (c : Char) : State :=
  match s with
  | text => text
  | escape =>
    if isLayoutControl c then text
    else if ' ' ≤ c ∧ c ≤ '/' then escapeIntermediate
    else if c = '[' then control
    else if c = ']' then command
    else if c = 'P' then deviceEntry
    else if c = 'X' ∨ c = '^' ∨ c = '_' then string
    else if '0' ≤ c ∧ c ≤ '~' then text
    else escape
  | escapeIntermediate =>
    if isLayoutControl c ∨ ('0' ≤ c ∧ c ≤ '~') then text else escapeIntermediate
  | control => if isLayoutControl c ∨ ('@' ≤ c ∧ c ≤ '~') then text else control
  | deviceEntry =>
    if ' ' ≤ c ∧ c ≤ '/' then deviceIntermediates
    else if '0' ≤ c ∧ c ≤ '?' then deviceParameters
    else if '@' ≤ c ∧ c ≤ '~' then string
    else deviceEntry
  | deviceParameters =>
    if ' ' ≤ c ∧ c ≤ '/' then deviceIntermediates
    else if '<' ≤ c ∧ c ≤ '~' then string
    else deviceParameters
  | deviceIntermediates => if '0' ≤ c ∧ c ≤ '~' then string else deviceIntermediates
  | string => if endsString c then text else string
  | command => if c = '\x07' then text else command

/-- The state after a character. -/
def State.next (s : State) (c : Char) : State :=
  if c = '\x1b' then escape
  else if c = '\x18' ∨ c = '\x1a' then text
  else s.advance c

/-- What is left of a text that begins in a state. -/
def stripFrom (s : State) : List Char → List Char
  | [] => []
  | c :: cs => if isLeft s c then c :: stripFrom (s.next c) cs else stripFrom (s.next c) cs

/-- What is left of a text. -/
def strip (text : String) : String := String.ofList (stripFrom .text text.toList)

end Reckon.Text.ControlSequence
