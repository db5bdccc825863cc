import Reckon.Lexeme
import Reckon.SyntaxError
/-!
# Tokens

A source is cut into tokens, which cover it without a gap: white space, lexemes, and text of which
nothing can be made. Each token is as long as it can be. A run of digits and points is one token, a
number if it is a numeral; a run of letters, digits, underscores and points that starts like a name
is one token, a keyword or a truth value only if the whole run is that word; a string ends at the
first quote that is not escaped, and takes everything if there is none; a character that starts
nothing is a token by itself.

* `munch` — the first token of a text that is not empty, and what follows it;
* `tokenize` — all tokens of a source, which never fails;
* `scan` — the lexemes before the first fault, which is what the parser reads.
-/

namespace Reckon

/-- What a piece of text is read as. -/
inductive Reading where
  /-- White space between lexemes. -/
  | blank
  | lexeme (lexeme : Lexeme)
  | fault (fault : LexicalFault)
deriving DecidableEq

/-! ### Classes of characters -/

/-- White space between lexemes, which is less than the white space of Unicode. -/
def isLayout (c : Char) : Bool :=
  c = ' ' ∨ c = '\t' ∨ c = '\r' ∨ c = '\n' ∨ c = '\x0b' ∨ c = '\x0c'

/-- The characters of a number. -/
def isNumeric (c : Char) : Bool := c.isDigit ∨ c = '.'

/-- The characters that start a name: ASCII letters and the underscore. -/
def startsWord (c : Char) : Bool := c.isAlpha ∨ c = '_'

/-- The characters that continue a name. -/
def continuesWord (c : Char) : Bool := c.isAlphanum ∨ c = '_' ∨ c = '.'

/-! ### Single lexemes -/

/-- What a run of digits and points is read as. -/
def readNumber (run : List Char) : Reading :=
  match Numeral.read? run with
  | some x => .lexeme (.number x)
  | none => .fault (.invalidNumber (String.ofList run))

/-- What a word is: a truth value, a keyword, or else a name. -/
def readWord (word : List Char) : Lexeme :=
  let name := String.ofList word
  if name = "true" then .boolean true
  else if name = "false" then .boolean false
  else match Keyword.all.find? (·.spelling = name) with
    | some k => .keyword k
    | none => .identifier name

/-- The symbol of two characters. -/
def symbolOfTwo? : Char → Char → Option Symbol
  | '=', '=' => some .equalEqual
  | '!', '=' => some .bangEqual
  | '<', '=' => some .lessEqual
  | '>', '=' => some .greaterEqual
  | '&', '&' => some .ampAmp
  | '|', '|' => some .barBar
  | _, _ => none

/-- The symbol of one character. -/
def symbolOfOne? : Char → Option Symbol
  | '+' => some .plus
  | '-' => some .minus
  | '*' => some .star
  | '/' => some .slash
  | '%' => some .percent
  | '<' => some .less
  | '>' => some .greater
  | '!' => some .bang
  | '?' => some .question
  | ':' => some .colon
  | '(' => some .openParen
  | ')' => some .closeParen
  | ',' => some .comma
  | _ => none

/-- What a backslash and the character after it stand for in a string. A pair that is no escape
stands for itself. -/
def unescape : Char → List Char
  | 'n' => ['\n']
  | 't' => ['\t']
  | 'r' => ['\r']
  | '\\' => ['\\']
  | '"' => ['"']
  | c => ['\\', c]

/-- A string after its opening quote: its text up to the closing quote and with it, the value, and
what follows. -/
structure StringBody where
  text : List Char
  value : List Char
  rest : List Char
deriving DecidableEq

/-- The same body with a piece of text in front, which stands for a piece of the value. -/
def StringBody.extend (text value : List Char) (body : StringBody) : StringBody :=
  { body with text := text ++ body.text, value := value ++ body.value }

/-- Reads a string after its opening quote, if there is a closing one. A backslash hides the
character after it. -/
def readString : List Char → Option StringBody
  | [] => none
  | '"' :: cs => some ⟨['"'], [], cs⟩
  | '\\' :: cs =>
    match cs with
    | [] => none
    | c :: cs => (readString cs).map (.extend ['\\', c] (unescape c))
  | c :: cs => (readString cs).map (.extend [c] [c])

/-! ### Cutting a text -/

/-- A first token, and what follows it. -/
structure Munch where
  reading : Reading
  text : List Char
  rest : List Char
deriving DecidableEq

/-- The run at the front of the text whose first character is `c`, and whose others are accepted. -/
def munchRun (accepts : Char → Bool) (read : List Char → Reading) (c : Char) (cs : List Char) :
    Munch :=
  let run := c :: cs.takeWhile accepts
  ⟨read run, run, cs.dropWhile accepts⟩

/-- The string whose opening quote has been read. Without a closing quote the rest of the text is
taken. -/
def munchString (cs : List Char) : Munch :=
  match readString cs with
  | some body => ⟨.lexeme (.string (String.ofList body.value)), '"' :: body.text, body.rest⟩
  | none => ⟨.fault .unterminatedString, '"' :: cs, []⟩

/-- The symbol at the front of the text, one of two characters if possible. A character that is no
symbol is taken alone. -/
def munchSymbol (c : Char) (cs : List Char) : Munch :=
  match cs.head?.bind (symbolOfTwo? c) with
  | some s => ⟨.lexeme (.symbol s), c :: cs.take 1, cs.drop 1⟩
  | none =>
    match symbolOfOne? c with
    | some s => ⟨.lexeme (.symbol s), [c], cs⟩
    | none => ⟨.fault (.unexpectedCharacter c), [c], cs⟩

/-- The first token of the text that starts with `c` and goes on with `cs`. -/
def munch (c : Char) (cs : List Char) : Munch :=
  if isLayout c then munchRun isLayout (fun _ => .blank) c cs
  else if isNumeric c then munchRun isNumeric readNumber c cs
  else if startsWord c then munchRun continuesWord (fun run => .lexeme (readWord run)) c cs
  else if c = '"' then munchString cs
  else munchSymbol c cs

/-- The text of a string and what follows it are all of the text. -/
theorem readString_text {cs : List Char} {body : StringBody} (h : readString cs = some body) :
    body.text ++ body.rest = cs := by
  fun_induction readString cs generalizing body with
  | case1 => simp at h
  | case2 cs => cases h; rfl
  | case3 => simp at h
  | case4 c cs ih =>
    obtain ⟨inner, hinner, rfl⟩ := Option.map_eq_some_iff.mp h
    simp [StringBody.extend, ih hinner]
  | case5 c cs _ _ ih =>
    obtain ⟨inner, hinner, rfl⟩ := Option.map_eq_some_iff.mp h
    simp [StringBody.extend, ih hinner]

/-- A token and what follows it are the whole text. -/
theorem munch_text_append_rest (c : Char) (cs : List Char) :
    (munch c cs).text ++ (munch c cs).rest = c :: cs := by
  unfold munch
  split
  · simp [munchRun]
  · split
    · simp [munchRun]
    · split
      · simp [munchRun]
      · split
        · next hc =>
          subst hc
          unfold munchString
          split
          · next body hbody => simp [readString_text hbody]
          · simp
        · unfold munchSymbol
          split
          · cases cs <;> rfl
          · split <;> rfl

/-- A token starts with the first character of the text, so that it is never empty. -/
theorem munch_text_head (c : Char) (cs : List Char) : (munch c cs).text.head? = some c := by
  unfold munch
  split
  · rfl
  · split
    · rfl
    · split
      · rfl
      · split
        · next hc =>
          subst hc
          unfold munchString
          split <;> rfl
        · unfold munchSymbol
          split
          · rfl
          · split <;> rfl

/-- What follows a token is shorter than the text. -/
theorem munch_rest_length (c : Char) (cs : List Char) : (munch c cs).rest.length ≤ cs.length := by
  have happend := congrArg List.length (munch_text_append_rest c cs)
  have hhead := munch_text_head c cs
  cases htext : (munch c cs).text with
  | nil => simp [htext] at hhead
  | cons t ts => simp [htext] at happend; omega

/-- The readings of a text with the pieces they were read from, in order. -/
def readings : List Char → List (Reading × String)
  | [] => []
  | c :: cs =>
    let first := munch c cs
    (first.reading, String.ofList first.text) :: readings first.rest
termination_by cs => cs.length
decreasing_by exact Nat.lt_succ_of_le (munch_rest_length c cs)

/-! ### Tokens -/

/-- A piece of a source: what it is read as, where it starts, and its text. -/
structure Token where
  reading : Reading
  /-- The offset of the first byte. -/
  start : Nat
  text : String
deriving DecidableEq

namespace Token

/-- The class of the token. -/
def kind (t : Token) : TokenKind :=
  match t.reading with
  | .blank => .whitespace
  | .lexeme l => l.kind
  | .fault _ => .unknown

/-- The number of bytes. -/
def length (t : Token) : Nat := t.text.utf8ByteSize

/-- The offset after the last byte. -/
def stop (t : Token) : Nat := t.start + t.length

/-- Whether nothing can be made of the text. -/
def isFault (t : Token) : Bool := t.kind = .unknown

/-- The lexeme, if the token is one. -/
def placed? (t : Token) : Option Placed :=
  match t.reading with
  | .lexeme l => some ⟨l, t.start⟩
  | _ => none

/-- The error that the token is in an expression. -/
def error? (t : Token) : Option SyntaxError :=
  match t.reading with
  | .fault fault => some (.located (.lexical fault) (.byte t.start))
  | _ => none

/-- Whether two tokens look alike: class, place and text. -/
def same (t u : Token) : Bool := t.kind == u.kind && t.start == u.start && t.text == u.text

/-- Tokens from pieces that follow each other, the first one at `start`. -/
def place (start : Nat) : List (Reading × String) → List Token
  | [] => []
  | (reading, text) :: pieces =>
    ⟨reading, start, text⟩ :: place (start + text.utf8ByteSize) pieces

end Token

/-- All tokens of a source, in order. They cover the source, whatever it is. -/
def tokenize (source : String) : List Token := Token.place 0 (readings source.toList)

/-- What a source holds before the first piece of which nothing can be made. -/
structure Scan where
  /-- The lexemes. -/
  lexemes : List Placed
  /-- The tokens, if they were asked for. -/
  tokens : Option (List Token)
  /-- The error that ended the scan, if any. -/
  error : Option SyntaxError

/-- A scan that begins with a lexeme. -/
def Scan.withLexeme (lexeme : Placed) (s : Scan) : Scan :=
  { s with lexemes := lexeme :: s.lexemes }

/-- A scan that begins with a token. -/
def Scan.withToken (token : Token) (s : Scan) : Scan :=
  { s with tokens := s.tokens.map (token :: ·) }

/-- Scans a text that starts at an offset. -/
def scanFrom (collect : Bool) (start : Nat) : List Char → Scan
  | [] => ⟨[], if collect then some [] else none, none⟩
  | c :: cs =>
    let first := munch c cs
    let text := String.ofList first.text
    let others := scanFrom collect (start + text.utf8ByteSize) first.rest
    match first.reading with
    | .blank => others.withToken ⟨first.reading, start, text⟩
    | .lexeme lexeme =>
      (others.withLexeme ⟨lexeme, start⟩).withToken ⟨first.reading, start, text⟩
    | .fault fault =>
      ⟨[], if collect then some [] else none, some (.located (.lexical fault) (.byte start))⟩
termination_by cs => cs.length
decreasing_by exact Nat.lt_succ_of_le (munch_rest_length c cs)

/-- Scans a source up to the first piece of which nothing can be made. -/
def scan (source : String) (collect : Bool) : Scan := scanFrom collect 0 source.toList

end Reckon
