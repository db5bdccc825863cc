/-!
# Positions

Where in a source something stands, counted in bytes of UTF-8. The end of the input has a position
of its own, which is met before it is known where the source ends.
-/

namespace Reckon

/-- A place in a source. -/
inductive Position where
  /-- The byte with this offset. -/
  | byte (offset : Nat)
  /-- After everything there is. -/
  | endOfInput
deriving DecidableEq, Repr, Inhabited

namespace Position

/-- What is shown for the end of the input: the greatest offset that 64 bits can hold. -/
def endOffset : Nat := UInt64.size - 1

/-- The offset that messages show. -/
def shown : Position → Nat
  | byte offset => offset
  | endOfInput => endOffset

/-- Whether a position lies before another one. -/
def before : Position → Position → Bool
  | byte p, byte q => p < q
  | byte _, endOfInput => true
  | endOfInput, _ => false

end Position

end Reckon
