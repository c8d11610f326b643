/-!
# Positions in a text

A source is what is left of a text together with the number of characters before it; a span is a
range of positions.
-/

namespace Pushdown.Format

/-- The unread end of a text. -/
structure Source where
  offset : Nat
  rest : List Char
  deriving DecidableEq, Repr

/-- The positions from `start` up to but not including `stop`. -/
structure Span where
  start : Nat
  stop : Nat
  deriving DecidableEq, Repr

def isNewline (c : Char) : Bool := c = '\n' || c = '\r'

namespace Source

def ofText (text : List Char) : Source := ⟨0, text⟩

def drop (s : Source) (n : Nat) : Source := ⟨s.offset + n, s.rest.drop n⟩

def takeWhile (s : Source) (inClass : Char → Bool) : List Char × Source :=
  let taken := s.rest.takeWhile inClass
  (taken, s.drop taken.length)

def dropWhile (s : Source) (inClass : Char → Bool) : Source := (s.takeWhile inClass).2

def dropText? (s : Source) (text : List Char) : Option Source :=
  if text.isPrefixOf s.rest then some (s.drop text.length) else none

end Source

end Pushdown.Format
