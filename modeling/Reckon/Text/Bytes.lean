/-!
# Texts as bytes

Where the order of two strings is asked for, or whether one occurs in the other, it is the bytes of
their UTF-8 encoding that are looked at, and characters play no part.
-/

namespace Reckon.Text

/-- The bytes of a string. -/
def bytes (s : String) : List UInt8 := s.toUTF8.data.toList

/-- Whether the first bytes occur among the second ones, as one piece. -/
def occursIn (needle : List UInt8) : List UInt8 → Bool
  | [] => needle.isEmpty
  | b :: bs => needle.isPrefixOf (b :: bs) || occursIn needle bs

end Reckon.Text
