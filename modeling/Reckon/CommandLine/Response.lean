import Reckon.CommandLine.Files
import Reckon.CommandLine.Options
import Reckon.Compiled
import Reckon.Environment
/-!
# What the command line answers

The value of the expression, or an error and, where it has a place on a single line, the line with
a mark below that place. The tokens come first if they were asked for. The mark is padded to its
column, and the width of a padded text has 16 bits: behind too many characters the program breaks
off where the mark would be written.

* `Response.width?` — a number as a width, if it is not too great for one;
* `Response.ofSource` — the answer for a source;
* `Response.ofArguments` — the answer to arguments, whatever it is that reads files.
-/

namespace Reckon

/-- What the program writes and how it ends. -/
structure Response where
  /-- How the program ends: 0 for a value, 1 for a failure, 2 for arguments that are wrong, and 101
  where it breaks off. -/
  exitCode : UInt32
  /-- What goes to the standard output. -/
  output : String
  /-- What goes to the error output. Where the program breaks off, the platform adds a report of its
  own, which is no part of this text. -/
  errors : String
deriving DecidableEq, Repr

namespace Response

/-! ### Padding -/

/-- A number as the width of a padded text, if it is not too great for one. -/
def width? (n : Nat) : Option UInt16 :=
  if h : n < UInt16.size then some (UInt16.ofNatLT n h) else none

/-- Text with blanks after it, up to a width. -/
def padRight (width : UInt16) (text : String) : String :=
  text ++ String.ofList (List.replicate (width.toNat - text.length) ' ')

/-- Text with blanks before it, up to a width. -/
def padLeft (width : UInt16) (text : String) : String :=
  String.ofList (List.replicate (width.toNat - text.length) ' ') ++ text

theorem width?_of_lt {n : Nat} (h : n < UInt16.size) : width? n = some (UInt16.ofNatLT n h) :=
  dif_pos h

theorem width?_eq_none_iff {n : Nat} : width? n = none ↔ UInt16.size ≤ n := by
  simp [width?]

/-! ### Answers -/

/-- The line of a listing for one token. -/
def tokenLine (t : Token) : String :=
  padRight 12 t.kind.name ++ padLeft 5 (toString t.start) ++ padLeft 5 (toString t.length) ++
    "  " ++ Text.quoted t.text ++ "\n"

/-- The number of characters that start before an offset, the first one starting at `start`. -/
def charactersBefore (offset : Nat) (start : Nat) : List Char → Nat
  | [] => 0
  | c :: cs => if start < offset then charactersBefore offset (start + c.utf8Size) cs + 1 else 0

/-- The source with a mark below a position, if it is a single line. It cannot be written where the
mark would need too great a width. -/
def excerpt? (source : String) (position : Position) : Option String :=
  if source.toList.contains '\n' then some ""
  else do
    let column := charactersBefore position.shown 0 source.toList
    let width ← width? (column + 1)
    return "  " ++ source ++ "\n  " ++ padLeft width "^" ++ "\n"

/-- The answer for a source that is no expression, after the listing of its tokens. The message is
written in any case. -/
def ofSyntaxError (listing source : String) (error : SyntaxError) : Response :=
  let excerpt := match error.position? with
    | some position => excerpt? source position
    | none => some ""
  match excerpt with
  | some excerpt => ⟨1, listing, error.message ++ "\n" ++ excerpt⟩
  | none => ⟨101, listing, error.message ++ "\n"⟩

/-- The answer for a source. -/
def ofSource (options : Options) (source : String) : Response :=
  let listing :=
    if options.listTokens then String.join ((tokenize source).map tokenLine) else ""
  match (calculate (Environment.ofVariables options.definitions).host source false).result with
  | .ok (value, _) => ⟨0, listing ++ value.toText ++ "\n", ""⟩
  | .error (.inSource e) => ofSyntaxError listing source e
  | .error (.inEvaluation e) => ⟨1, listing, e.message ++ "\n"⟩

/-- The answer where the file with the expression cannot be read. -/
def ofUnreadable (path : String) (fault : FileFault) : Response :=
  ⟨1, "", s!"Failed to read the input file '{path}': {fault.message}\n"⟩

/-- The answer for what was found at the path of a file. -/
def ofFile (options : Options) (found : Except FileFault ByteArray) : Response :=
  match found with
  | .error fault => ofUnreadable options.expression fault
  | .ok bytes =>
    match String.fromUTF8? bytes with
    | some source => ofSource options source
    | none => ofUnreadable options.expression .notText

/-- The answer to arguments that are wrong. -/
def ofUsageError (error : UsageError) : Response := ⟨2, "", error.message⟩

/-- The answer to some arguments, where `read` finds what is at a path. -/
def ofArguments {m : Type → Type} [Monad m] (read : String → m (Except FileFault ByteArray))
    (arguments : List String) : m Response :=
  match Options.ofArguments arguments with
  | .error e => return ofUsageError e
  | .ok options =>
    if options.fromFile then return ofFile options (← read options.expression)
    else return ofSource options options.expression

end Response

end Reckon
