import Reckon.Text.Unprintable
/-!
# Quoted text

Text that a message or a listing shows between double quotes. A quote, a backslash, a tab, a line
feed, a carriage return and the null character are written as a backslash and a letter, every other
character without a glyph of its own as `\u` and its code point in braces. An apostrophe stays as
it is.
-/

namespace Reckon.Text

/-- The letter that stands after a backslash for a character. -/
def escapeLetter? : Char → Option Char
  | '"' => some '"'
  | '\\' => some '\\'
  | '\t' => some 't'
  | '\n' => some 'n'
  | '\r' => some 'r'
  | '\x00' => some '0'
  | _ => none

/-- What is written for one character. -/
def escape (c : Char) : List Char :=
  match escapeLetter? c with
  | some letter => ['\\', letter]
  | none =>
    if isUnprintable c then '\\' :: 'u' :: '{' :: Nat.toDigits 16 c.toNat ++ ['}'] else [c]

/-- The text between double quotes, with its escapes. -/
def quoted (text : String) : String :=
  String.ofList ('"' :: text.toList.flatMap escape ++ ['"'])

end Reckon.Text
